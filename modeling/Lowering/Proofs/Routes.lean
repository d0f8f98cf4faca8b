import Lowering.Proofs.Chains
/-!
The paths of a solved log.

A replay makes a path for every chain of calls that it follows, and records a trace on the path that
it is on. So each path stands for a chain of calls that leads into a subroutine, a trace is recorded
on paths that lead to where it stands, and after a whole pass it is recorded on all of them.
-/
namespace Lowering

open Replay

namespace RootLog

variable {l l' l'' : RootLog} {opened : List Opening}

/-- A chain of call sites, innermost first, that leads from outside all subroutines into `inside`. -/
inductive Leads (l : RootLog) : List CallSiteId → Option RegionId → Prop where
  | outside : Leads l [] none
  | call {site rest k resume} (here : l.entries[k]? = some (.pushSubroutine site resume))
      (before : Leads l rest (l.enclosing k)) : Leads l (site :: rest) (some (l.call site).region)

inductive Spelled (l : RootLog) : Option PathId → List CallSiteId → Prop where
  | outside : Spelled l none []
  | call {p : PathId} {d rest} (here : l.paths[p.index]? = some d) (before : Spelled l d.outer rest) :
      Spelled l (some p) (d.call :: rest)

theorem Spelled.extend {p : PathId} {d : CallPath} {site : CallSiteId} {outer : Option PathId}
    {rest : List CallSiteId} (here : l.paths[p.index]? = some d) (call : d.call = site)
    (extends' : d.outer = outer) (before : l.Spelled outer rest) :
    l.Spelled (some p) (site :: rest) := by
  subst call extends'
  exact .call here before

def within (l : RootLog) (path : Option PathId) : Option RegionId :=
  path.map fun p => (l.call (l.path p).call).region

def pathsOf (l : RootLog) (t : TraceId) : List PathId := (l.traceAt t).paths.map (·.path)

theorem withinCall {p : PathId} {d : CallPath} (here : l.paths[p.index]? = some d) :
    l.within (some p) = some (l.call d.call).region := by
  simp only [within, Option.map_some, RootLog.path, Array.getD_eq_getD_getElem?, here, Option.getD_some]

theorem Grows.within (grows : Grows l l') {path : Option PathId} (knows : l.Knows path) :
    l'.within path = l.within path := by
  cases path with
  | none => rfl
  | some p =>
    have here : l.paths[p.index]? = some l.paths[p.index] := Array.getElem?_eq_getElem knows
    obtain ⟨d, there, call, -⟩ := grows.paths _ _ here
    rw [withinCall here, withinCall there, grows.callees, call]

theorem Grows.openAt (grows : Grows l l') (k : Nat) : l'.openAt k = l.openAt k := by
  induction k with
  | zero => rfl
  | succ k ih => simp only [RootLog.openAt, grows.entries, grows.callees, ih]

theorem Grows.enclosing (grows : Grows l l') (k : Nat) : l'.enclosing k = l.enclosing k := by
  rw [RootLog.enclosing, RootLog.enclosing, grows.openAt]

theorem Spelled.grow (grows : Grows l l') {path : Option PathId} {chain : List CallSiteId}
    (spelled : l.Spelled path chain) : l'.Spelled path chain := by
  induction spelled with
  | outside => exact .outside
  | call here _ ih =>
    obtain ⟨d, there, call, outer, -⟩ := grows.paths _ _ here
    exact call ▸ .call there (outer ▸ ih)

theorem Spelled.unique (charted : Charted l) {p q : Option PathId} {chain : List CallSiteId}
    (first : l.Spelled p chain) (second : l.Spelled q chain) : p = q := by
  induction first generalizing q with
  | outside => cases second; rfl
  | @call p d rest here before ih =>
    generalize same : d.call :: rest = whole at second
    cases second with
    | outside => cases same
    | @call q e rest' there before' =>
      injection same with call tail
      subst tail
      have index := charted.single _ _ d e here there call (ih before')
      cases p
      cases q
      exact congrArg (fun i => some (PathId.mk i)) index

theorem Spelled.chain {path : Option PathId} {chain chain' : List CallSiteId}
    (first : l.Spelled path chain) (second : l.Spelled path chain') : chain = chain' := by
  induction first generalizing chain' with
  | outside => cases second; rfl
  | call here _ ih =>
    cases second with
    | call there before' =>
      cases here.symm.trans there
      rw [ih before']

theorem Leads.grow (grows : Grows l l') {chain : List CallSiteId} {inside : Option RegionId}
    (leads : l.Leads chain inside) : l'.Leads chain inside := by
  induction leads with
  | outside => exact .outside
  | @call site rest k resume here _ ih =>
    rw [← grows.callees]
    exact .call (grows.entries ▸ here) (grows.enclosing k ▸ ih)

/-- The paths of a log stand for chains of calls, and the maps of a trace for chains that lead to
it. -/
structure Routed (l : RootLog) : Prop where
  charted : Charted l
  calls : ∀ (p : Nat) d, l.paths[p]? = some d → ∃ (k resume : Nat),
    l.entries[k]? = some (.pushSubroutine d.call resume) ∧ l.enclosing k = l.within d.outer
  traces : ∀ t, ∀ p ∈ l.pathsOf t, l.Knows (some p) ∧ ∃ (k : Nat),
    l.entries[k]? = some (.trace t) ∧ l.enclosing k = l.within (some p)
  once : ∀ t, (l.pathsOf t).Nodup

theorem Charted.knowsOuter (charted : Charted l) {p : Nat} {d : CallPath}
    (here : l.paths[p]? = some d) : l.Knows d.outer := by
  cases outer : d.outer with
  | none => trivial
  | some o => exact Nat.lt_trans (charted.outer p d o here outer) (Array.getElem?_eq_some_iff.mp here).1

theorem Routed.spelled (routed : Routed l) {path : Option PathId} (knows : l.Knows path) :
    ∃ chain, l.Spelled path chain ∧ l.Leads chain (l.within path) := by
  suffices each : ∀ (n : Nat) {path : Option PathId}, l.Knows path →
      (∀ p ∈ path, p.index < n) → ∃ chain, l.Spelled path chain ∧ l.Leads chain (l.within path) from
    each l.paths.size knows fun p member => by cases member; exact knows
  intro n
  induction n with
  | zero =>
    intro path _ small
    cases path with
    | none => exact ⟨[], .outside, .outside⟩
    | some p => exact absurd (small p rfl) (Nat.not_lt_zero _)
  | succ n ih =>
    intro path knows small
    cases path with
    | none => exact ⟨[], .outside, .outside⟩
    | some p =>
      have here : l.paths[p.index]? = some l.paths[p.index] := Array.getElem?_eq_getElem knows
      obtain ⟨k, resume, entry, enclosing⟩ := routed.calls _ _ here
      obtain ⟨rest, spelled, leads⟩ := ih (routed.charted.knowsOuter here) fun o member =>
        Nat.lt_of_lt_of_le (routed.charted.outer _ _ o here member) (Nat.le_of_lt_succ (small p rfl))
      refine ⟨_, .call here spelled, ?_⟩
      rw [withinCall here]
      exact .call entry (enclosing ▸ leads)

theorem Routed.reshaped (routed : Routed l) (grows : Grows l l') (charted : Charted l')
    (paths : ∀ (p : Nat) d', l'.paths[p]? = some d' → ∃ d, l.paths[p]? = some d ∧
      d'.call = d.call ∧ d'.outer = d.outer)
    (traces : ∀ t, l'.pathsOf t = l.pathsOf t) : Routed l' where
  charted := charted
  calls p d' there := by
    obtain ⟨d, here, call, outer⟩ := paths p d' there
    obtain ⟨k, resume, entry, enclosing⟩ := routed.calls p d here
    refine ⟨k, resume, ?_, ?_⟩
    · rw [grows.entries, call, entry]
    · rw [grows.enclosing, outer, grows.within (routed.charted.knowsOuter here), enclosing]
  traces t p member := by
    obtain ⟨knows, k, entry, enclosing⟩ := routed.traces t p (traces t ▸ member)
    refine ⟨(Knows.grow grows knows : RootLog.Knows _ (some p)), k, by rw [grows.entries, entry], ?_⟩
    rw [grows.enclosing, grows.within knows, enclosing]
  once t := traces t ▸ routed.once t

/-- A later state of a replayed log, in which traces are recorded on the same paths and maybe on
more. -/
structure Keeps (l l' : RootLog) : Prop where
  grows : Grows l l'
  pathsOf : ∀ t, l.pathsOf t ⊆ l'.pathsOf t

theorem Keeps.refl (l : RootLog) : Keeps l l := ⟨.refl l, fun _ => List.Subset.refl _⟩

theorem Keeps.trans (first : Keeps l l') (second : Keeps l' l'') : Keeps l l'' :=
  ⟨first.grows.trans second.grows, fun t =>
    List.Subset.trans (first.pathsOf t) (second.pathsOf t)⟩

section Steps

variable {r : Replay}

theorem arriveKeeps (path : Option PathId) (ip : Nat) (roots : RootMap) (last : Bool) :
    Keeps r.log (r.arrive path ip roots last).2.log :=
  ⟨arriveGrows .., fun t => by
    rw [pathsOf, pathsOf, Passage.arriveTraces]
    exact List.Subset.refl _⟩

theorem pathForTraces (site : CallSiteId) (path : Option PathId) (t : TraceId) :
    (r.pathFor site path).2.log.pathsOf t = r.log.pathsOf t := by
  obtain ⟨p, -, -, found⟩ | ⟨-, made⟩ := r.pathForCases site path
  · rw [found]
  · rw [made]
    rfl

theorem pathForKeeps (site : CallSiteId) (path : Option PathId) :
    Keeps r.log (r.pathFor site path).2.log :=
  ⟨pathForGrows .., fun t => by
    rw [pathForTraces]
    exact List.Subset.refl _⟩

theorem setPathMapPaths (p : PathId) (roots : RootMap) (ts : List PathTrace) :
    (setPathMap p roots ts).1.map (·.path) =
      if p ∈ ts.map (·.path) then ts.map (·.path) else ts.map (·.path) ++ [p] := by
  induction ts with
  | nil => rfl
  | cons t rest ih =>
    by_cases here : t.path = p
    · simp [setPathMap, here]
    · simp only [setPathMap, here, if_false, List.map_cons, ih, List.mem_cons, Ne.symm here, false_or]
      split <;> rfl

theorem pathsOfRecord {t : TraceId} (known : t.index < r.log.traces.size) (path : Option PathId)
    (roots : RootMap) (u : TraceId) :
    (r.recordTrace t path roots).log.pathsOf u = r.log.pathsOf u ∨
      ∃ p, u = t ∧ path = some p ∧ p ∉ r.log.pathsOf u ∧
        (r.recordTrace t path roots).log.pathsOf u = r.log.pathsOf u ++ [p] := by
  rw [pathsOf, pathsOf, traceAtRecord t u path roots known]
  by_cases same : u = t
  · subst same
    cases path with
    | none =>
      rw [if_pos rfl]
      exact .inl rfl
    | some p =>
      have after := setPathMapPaths p roots (r.log.traceAt u).paths
      rw [if_pos rfl]
      split at after
      · exact .inl after
      · exact .inr ⟨p, rfl, rfl, by assumption, after⟩
  · rw [if_neg same]
    exact .inl rfl

theorem recordKeeps {t : TraceId} (known : t.index < r.log.traces.size) (path : Option PathId)
    (roots : RootMap) : Keeps r.log (r.recordTrace t path roots).log :=
  ⟨recordTraceGrows .., fun u => by
    rcases pathsOfRecord known path roots u with same | ⟨p, -, -, -, more⟩
    · rw [same]
      exact List.Subset.refl _
    · rw [more]
      exact List.subset_append_left _ _⟩

theorem pathRecorded {t : TraceId} (known : t.index < r.log.traces.size) (p : PathId)
    (roots : RootMap) : p ∈ (r.recordTrace t (some p) roots).log.pathsOf t := by
  rw [pathsOf, traceAtRecord t t _ roots known, if_pos rfl]
  simp only [retraced, setPathMapPaths]
  split
  · assumption
  · exact List.mem_append_right _ (List.mem_singleton.mpr rfl)

end Steps

structure Stands (l : RootLog) (i : Nat) (path : Option PathId) (r : Replay) : Prop where
  grows : Grows l r.log
  routed : Routed r.log
  knows : r.log.Knows path
  inside : r.log.within path = l.enclosing i

namespace Stands

variable {i j : Nat} {path : Option PathId} {r r' : Replay}

theorem move (stands : Stands l i path r) (level : l.openAt j = l.openAt i) : Stands l j path r :=
  { stands with inside := by rw [stands.inside, RootLog.enclosing, RootLog.enclosing, level] }

theorem next (stands : Stands l i path r) {e : LogEntry} (here : l.entries[i]? = some e)
    (push : ∀ site resume, e ≠ .pushSubroutine site resume) (pop : e ≠ .popSubroutine) :
    Stands l (i + 1) path r := stands.move (openAtPlain here push pop)

theorem back {q : Option PathId} (stands : Stands l i path r) (inner : Stands l j q r')
    (grown : Grows r.log r'.log) : Stands l i path r' where
  grows := inner.grows
  routed := inner.routed
  knows := stands.knows.grow grown
  inside := by rw [grown.within stands.knows, stands.inside]

theorem arrive (stands : Stands l i path r) (ip : Nat) (roots : RootMap) (last : Bool) :
    Stands l i path (r.arrive path ip roots last).2 where
  grows := stands.grows.trans (arriveGrows ..)
  routed := by
    obtain ⟨m, same⟩ := arriveLog (r := r) path ip roots last
    refine stands.routed.reshaped (arriveGrows ..) (arriveCharted stands.routed.charted ..) ?_
      fun t => by rw [pathsOf, pathsOf, Passage.arriveTraces]
    intro p d' there
    rw [same] at there
    cases path with
    | none => exact ⟨d', there, rfl, rfl⟩
    | some q =>
      simp only [setMap, Array.getElem?_modify] at there
      split at there
      · obtain ⟨d, here, rfl⟩ := Option.map_eq_some_iff.mp there
        exact ⟨d, here, rfl, rfl⟩
      · exact ⟨d', there, rfl, rfl⟩
  knows := stands.knows.grow (arriveGrows ..)
  inside := by rw [(arriveGrows ..).within stands.knows, stands.inside]

theorem record (stands : Stands l i path r) {t : TraceId} (here : l.entries[i]? = some (.trace t))
    (known : t.index < l.traces.size) (roots : RootMap) :
    Stands l i path (r.recordTrace t path roots) := by
  have grown := recordTraceGrows (r := r) t path roots
  have paths : (r.recordTrace t path roots).log.paths = r.log.paths := by rw [recordTraceLog]
  refine ⟨stands.grows.trans grown, ?_, stands.knows.grow grown,
    by rw [grown.within stands.knows, stands.inside]⟩
  have old : ∀ u, ∀ p ∈ r.log.pathsOf u, (r.recordTrace t path roots).log.Knows (some p) ∧
      ∃ (k : Nat), (r.recordTrace t path roots).log.entries[k]? = some (.trace u) ∧
        (r.recordTrace t path roots).log.enclosing k =
          (r.recordTrace t path roots).log.within (some p) := by
    intro u p member
    obtain ⟨knows, k, entry, enclosing⟩ := stands.routed.traces u p member
    refine ⟨(Knows.grow grown knows : RootLog.Knows _ (some p)), k, by rw [grown.entries, entry], ?_⟩
    rw [grown.enclosing, grown.within knows, enclosing]
  constructor
  case charted => exact recordTraceCharted stands.routed.charted ..
  case calls =>
    intro p d at'
    rw [paths] at at'
    obtain ⟨k, resume, entry, enclosing⟩ := stands.routed.calls p d at'
    refine ⟨k, resume, by rw [grown.entries, entry], ?_⟩
    rw [grown.enclosing, grown.within (stands.routed.charted.knowsOuter at'), enclosing]
  case traces =>
    intro u p member
    rcases pathsOfRecord (stands.grows.traces ▸ known) path roots u with same | ⟨q, rfl, rfl, -, more⟩
    · exact old u p (same ▸ member)
    · rw [more] at member
      rcases List.mem_append.mp member with before | new
      · exact old u p before
      · cases List.mem_singleton.mp new
        refine ⟨stands.knows.grow grown, i, by rw [grown.entries, stands.grows.entries, here], ?_⟩
        rw [grown.enclosing, stands.grows.enclosing, grown.within stands.knows, stands.inside]
  case once =>
    intro u
    rcases pathsOfRecord (stands.grows.traces ▸ known) path roots u with same | ⟨q, -, -, fresh, more⟩
    · exact same ▸ stands.routed.once u
    · rw [more]
      refine List.nodup_append.mpr ⟨stands.routed.once u, by simp, fun p old q' new => ?_⟩
      cases List.mem_singleton.mp new
      exact fun same => fresh (same ▸ old)

theorem call (stands : Stands l i path r) {site initial : CallSiteId} {resume first stop : Nat}
    (here : l.entries[i]? = some (.pushSubroutine site resume)) (known : site.index < l.calls.size)
    (start : l.entries[first]? = some (.pushSubroutine initial stop))
    (same : (l.call initial).region = (l.call site).region) :
    Stands l (first + 1) (some (r.pathFor site path).1) (r.pathFor site path).2 := by
  have grown := pathForGrows (r := r) site path
  have charted := pathForCharted stands.routed.charted (stands.grows.calls ▸ known) stands.knows
  obtain ⟨d, made, call, outer⟩ := pathForExtends stands.routed.charted site path
  refine ⟨stands.grows.trans grown, ⟨charted, ?_, ?_, ?_⟩, (Array.getElem?_eq_some_iff.mp made).1, ?_⟩
  · intro p e there
    obtain ⟨q, -, -, found⟩ | ⟨-, fresh⟩ := r.pathForCases site path
    · rw [found] at there ⊢
      exact stands.routed.calls p e there
    · rw [fresh] at there grown ⊢
      simp only [withPath, Array.getElem?_push] at there
      split at there
      · cases there
        refine ⟨i, resume, by rw [grown.entries, stands.grows.entries, here], ?_⟩
        rw [grown.enclosing, stands.grows.enclosing, grown.within stands.knows, stands.inside]
      · obtain ⟨k, resume, entry, enclosing⟩ := stands.routed.calls p e there
        refine ⟨k, resume, by rw [grown.entries, entry], ?_⟩
        rw [grown.enclosing, grown.within (stands.routed.charted.knowsOuter there), enclosing]
  · intro t p member
    rw [pathForTraces] at member
    obtain ⟨knows, k, entry, enclosing⟩ := stands.routed.traces t p member
    refine ⟨(Knows.grow grown knows : RootLog.Knows _ (some p)), k, by rw [grown.entries, entry], ?_⟩
    rw [grown.enclosing, grown.within knows, enclosing]
  · exact fun t => pathForTraces (r := r) site path t ▸ stands.routed.once t
  · rw [withinCall made, grown.callees, stands.grows.callees, call, RootLog.enclosing, openAtPush start,
      same]
    rfl

end Stands

def Handlerless (l : RootLog) : Prop :=
  ∀ (k start stop : Nat), l.entries[k]? ≠ some (.pushHandler start stop)

section Playing

variable {depth i j : Nat} {p : Passage} {path : Option PathId} {r : Replay}

theorem Reads.play (framed : Framed l) (handlerless : l.Handlerless) (reads : Reads l depth i p j) :
    ∀ {path : Option PathId} {r : Replay} (c : Cursor), Stands l i path r →
      Stands l j path (p.play path r c).1 ∧ Keeps r.log (p.play path r c).1.log := by
  induction reads with
  | done => exact fun _ stands => ⟨stands, .refl _⟩
  | mark here _ ih | clear here _ ih => exact fun _ stands => ih _ (stands.next here (by simp) (by simp))
  | @visit _ i _ ip _ here _ _ ih =>
    intro path r c stands
    have onward := ih (c.arrived (r.arrive path ip c.roots (l.endsAfter i)).1)
      ((stands.arrive ip c.roots (l.endsAfter i)).next here (by simp) (by simp))
    exact ⟨onward.1, (arriveKeeps ..).trans onward.2⟩
  | trace here known _ ih =>
    intro path r c stands
    have onward := ih c ((stands.record here known c.roots).next here (by simp) (by simp))
    exact ⟨onward.1, (recordKeeps (stands.grows.traces ▸ known) ..).trans onward.2⟩
  | @context _ _ _ _ body _ here _ close _ ihInside ihAfter =>
    intro path r c stands
    have inner := ihInside c.entered (stands.next here (by simp) (by simp))
    have after := ihAfter (c.left (body.play path r c.entered).2) (inner.1.next close (by simp) (by simp))
    exact ⟨after.1, inner.2.trans after.2⟩
  | handler here => exact absurd here (handlerless _ _ _)
  | @call _ _ _ _ _ _ called _ body _ here _ known start same _ _ _ _ ihInside ihAfter =>
    intro path r c stands
    let entered := c.called (r.pathFor called path).2.log
    have inner := ihInside entered (stands.call here known start same)
    have kept := (pathForKeeps (r := r) called path).trans inner.2
    have level := (framed.resumed _ _ _ here (by omega)).2.2
    have outer := ihAfter
      (c.returned (body.play (some (r.pathFor called path).1) (r.pathFor called path).2 entered).2)
      ((stands.back inner.1 kept.grows).move level)
    exact ⟨outer.1, kept.trans outer.2⟩

theorem beyondCall (framed : Framed l) {k i resume : Nat} {site : CallSiteId}
    (here : l.entries[i]? = some (.pushSubroutine site resume)) (low : i < k)
    (small : k < l.entries.size) (level : l.openAt k = l.openAt i) :
    resume ≤ k := by
  by_contra inside
  have deeper := (framed.inner i site k ⟨resume, here, low, by omega, by omega⟩).length_le
  rw [level] at deeper
  simp only [List.length_cons] at deeper
  omega

theorem Reads.arrives (framed : Framed l) (handlerless : l.Handlerless) {k : Nat} {e : LogEntry}
    (at' : l.entries[k]? = some e) (other : e ≠ .popContext) (reads : Reads l depth i p j) :
    ∀ {path : Option PathId} {r : Replay} {last : RootLog} (c : Cursor), Stands l i path r → i ≤ k →
      k < j → l.openAt k = l.openAt i → Keeps (p.play path r c).1.log last →
      ∃ depth rest stop r' c', Reads l depth k rest stop ∧ k < stop ∧ Grows r.log r'.log ∧
        Stands l k path r' ∧ Keeps (rest.play path r' c').1.log last := by
  induction reads with
  | done =>
    intro path r last c stands low high
    omega
  | @mark _ i j _ _ here after ih | @clear _ i j _ _ here after ih =>
    intro path r last c stands low high level keeps
    by_cases same : i = k
    · subst same
      exact ⟨_, _, j, r, c, by constructor <;> assumption, high, .refl _, stands, keeps⟩
    · exact ih _ (stands.next here (by simp) (by simp)) (by omega) high
        (by rw [level, openAtPlain here (by simp) (by simp)]) keeps
  | @visit _ i j ip _ here known after ih =>
    intro path r last c stands low high level keeps
    by_cases same : i = k
    · subst same
      exact ⟨_, _, j, r, c, .visit here known after, high, .refl _, stands, keeps⟩
    · obtain ⟨_, _, _, _, _, reads, long, grown, there⟩ :=
        ih (c.arrived (r.arrive path ip c.roots (l.endsAfter i)).1)
          ((stands.arrive ip c.roots (l.endsAfter i)).next here (by simp) (by simp)) (by omega) high
          (by rw [level, openAtPlain here (by simp) (by simp)]) keeps
      exact ⟨_, _, _, _, _, reads, long, (arriveGrows ..).trans grown, there⟩
  | @trace _ i j _ _ here known after ih =>
    intro path r last c stands low high level keeps
    by_cases same : i = k
    · subst same
      exact ⟨_, _, j, r, c, .trace here known after, high, .refl _, stands, keeps⟩
    · obtain ⟨_, _, _, _, _, reads, long, grown, there⟩ :=
        ih c ((stands.record here known c.roots).next here (by simp) (by simp)) (by omega) high
          (by rw [level, openAtPlain here (by simp) (by simp)]) keeps
      exact ⟨_, _, _, _, _, reads, long, (recordTraceGrows ..).trans grown, there⟩
  | @context _ i m j body _ here inside close after ihInside ihAfter =>
    intro path r last c stands low high level keeps
    have entered := stands.next here (by simp) (by simp)
    have inner := inside.play framed handlerless c.entered entered
    have left := inner.1.next close (by simp) (by simp)
    have open' : l.openAt (i + 1) = l.openAt i := openAtPlain here (by simp) (by simp)
    have ended : m ≠ k := by
      rintro rfl
      exact other (Option.some.inj (at'.symm.trans close))
    by_cases same : i = k
    · subst same
      exact ⟨_, _, j, r, c, .context here inside close after, high, .refl _, stands, keeps⟩
    by_cases before : k < m
    · exact ihInside _ entered (by omega) before (by rw [level, open'])
        ((after.play framed handlerless (c.left (body.play path r c.entered).2) left).2.trans keeps)
    · obtain ⟨_, _, _, _, _, reads, long, grown, there⟩ :=
        ihAfter (c.left (body.play path r c.entered).2) left (by omega) high (by
          rw [level, openAtPlain close (by simp) (by simp), inside.level framed, open']) keeps
      exact ⟨_, _, _, _, _, reads, long, inner.2.grows.trans grown, there⟩
  | handler here => exact absurd here (handlerless _ _ _)
  | @call _ i first stop resume j called initial body rest here back known start same recorded inside close after _ ih =>
    intro path r last c stands low high level keeps
    by_cases this : i = k
    · subst this
      exact ⟨_, _, j, r, c, .call here back known start same recorded inside close after, high, .refl _,
        stands, keeps⟩
    · let entered := c.called (r.pathFor called path).2.log
      have inner := inside.play framed handlerless entered (stands.call here known start same)
      have kept := (pathForKeeps (r := r) called path).trans inner.2
      have closed := (framed.resumed _ _ _ here (by omega)).2.2
      obtain ⟨_, _, _, _, _, reads, long, grown, there⟩ :=
        ih (c.returned _) ((stands.back inner.1 kept.grows).move closed)
          (beyondCall framed here (by omega) (RootLog.known at') level) high
          (by rw [level, closed]) keeps
      exact ⟨_, _, _, _, _, reads, long, kept.grows.trans grown, there⟩

end Playing

/-- The body of a subroutine is recorded at its first entry. Later entries record the visit of its
first instruction only. -/
def BodiesOnce (l : RootLog) : Prop :=
  ∀ (k : Nat) (site : CallSiteId) (resume : Nat), l.entries[k]? = some (.pushSubroutine site resume) →
    (l.region (l.call site).region).body ≠ k + 1 →
    l.entries[k + 1]? = some (.visit (l.region (l.call site).region).ip) ∧
      l.entries[k + 2]? = some .popSubroutine

def Closed (l : RootLog) : Prop :=
  ∀ (k : Nat) (site : CallSiteId) (resume : Nat), l.entries[k]? = some (.pushSubroutine site resume) →
    resume ≠ 0

theorem Recorded.closed (recorded : Recorded l []) : Closed l := by
  rintro k site resume here rfl
  have framed := recorded.framed
  obtain ⟨-, order, nested⟩ := recorded.nested
  obtain ⟨p, reads⟩ := nested.spine
  have inner := (framed.inner k site _ ⟨0, here, known here, Nat.le_refl _, .inl rfl⟩).length_le
  rw [reads.level framed] at inner
  simp [openAt] at inner

theorem BodiesOnce.inBody (once : l.BodiesOnce) (framed : Framed l) (closed : Closed l) {k : Nat}
    {e : LogEntry} {g : RegionId} (here : l.entries[k]? = some e) (visit : ∀ ip, e ≠ .visit ip)
    (pop : e ≠ .popSubroutine) (inside : l.enclosing k = some g) {first stop : Nat}
    {initial : CallSiteId} (start : l.entries[first]? = some (.pushSubroutine initial (stop + 1)))
    (recorded : (l.region g).body = first + 1)
    (close : l.entries[stop]? = some .popSubroutine) :
    first + 1 ≤ k ∧ k < stop ∧ l.openAt k = l.openAt (first + 1) := by
  have small := known here
  obtain ⟨rest, open'⟩ : ∃ rest, l.openAt k = g :: rest := by
    rw [RootLog.enclosing, List.head?_eq_some_iff] at inside
    exact inside
  obtain ⟨m, site, ⟨resume, entered, before, -, still⟩, region, outer⟩ :=
    framed.innermost k g rest (Nat.le_of_lt small) open'
  have onward := still.resolve_left (closed m site resume entered)
  -- it cannot be a later entry, which records nothing of the kind
  have body : (l.region (l.call site).region).body = m + 1 := by
    by_contra later
    obtain ⟨visited, popped⟩ := once m site resume entered later
    have next : k ≠ m + 1 := by
      rintro rfl
      exact visit _ (Option.some.inj (here.symm.trans visited))
    have next' : k ≠ m + 2 := by
      rintro rfl
      exact pop (Option.some.inj (here.symm.trans popped))
    have level : l.openAt (m + 3) = l.openAt m := by
      rw [openAtPop popped, openAtPlain visited (by simp) (by simp), openAtPush entered, List.tail_cons]
    have deeper := (framed.inner m site (m + 3)
      ⟨resume, entered, by omega, by omega, by omega⟩).length_le
    rw [level] at deeper
    simp only [List.length_cons] at deeper
    omega
  have this : m = first := by
    rw [region, recorded] at body
    omega
  subst this
  cases entered.symm.trans start
  have ended : k ≠ stop := by
    rintro rfl
    exact pop (Option.some.inj (here.symm.trans close))
  exact ⟨by omega, by omega, by rw [open', openAtPush entered, region, outer]⟩

def Comes (l last : RootLog) (chain : List CallSiteId) (inside : Option RegionId) : Prop :=
  ∃ depth i j p path r c, Reads l depth i p j ∧ Stands l i path r ∧ r.log.Spelled path chain ∧
    Keeps (p.play path r c).1.log last ∧
    ∀ (k : Nat) e, l.entries[k]? = some e → (∀ ip, e ≠ .visit ip) → e ≠ .popSubroutine →
      l.enclosing k = inside → i ≤ k ∧ k < j ∧ l.openAt k = l.openAt i

theorem Comes.chain {last : RootLog} (framed : Framed l) (closed : Closed l)
    (handlerless : l.Handlerless) (once : l.BodiesOnce) (start : Comes l last [] none)
    {chain : List CallSiteId} {inside : Option RegionId} (leads : l.Leads chain inside) :
    Comes l last chain inside := by
  induction leads with
  | outside => exact start
  | @call site rest k resume here _ ih =>
    obtain ⟨depth, i, j, p, path, r, c, reads, stands, spelled, keeps, whole⟩ := ih
    obtain ⟨low, high, level⟩ := whole k _ here (by simp) (by simp) rfl
    obtain ⟨depth', onward, stop', r', c', reads', long, grown, stands', keeps'⟩ :=
      reads.arrives framed handlerless here (by simp) c stands low high level keeps
    cases reads' with
    | call here' back known start same recorded reads close after =>
      cases here.symm.trans here'
      have entered := stands'.call here known start same
      have inner := reads.play framed handlerless
        (c'.called (r'.pathFor site path).2.log) entered
      have kept := (pathForKeeps (r := r') site path).trans inner.2
      have outer := (after.play framed handlerless _ ((stands'.back inner.1 kept.grows).move
        (framed.resumed _ _ _ here (by omega)).2.2)).2.trans keeps'
      have extended : (r'.pathFor site path).2.log.Spelled (some (r'.pathFor site path).1)
          (site :: rest) := by
        obtain ⟨d, made, call, extends'⟩ := pathForExtends stands'.routed.charted site path
        exact .extend made call extends' ((spelled.grow grown).grow (pathForGrows ..))
      refine ⟨_, _, _, _, _, _, _, reads, entered, extended, outer, ?_⟩
      · exact fun k' e' here' visit pop inside =>
          once.inBody framed closed here' visit pop inside start recorded close
    | _ => simp_all

theorem Comes.traced {last : RootLog} (framed : Framed l) (handlerless : l.Handlerless) {k : Nat}
    {t : TraceId} (here : l.entries[k]? = some (.trace t)) {chain : List CallSiteId}
    (called : chain ≠ []) (comes : Comes l last chain (l.enclosing k)) :
    ∃ q, last.Spelled (some q) chain ∧ q ∈ last.pathsOf t := by
  obtain ⟨depth, i, j, p, path, r, c, reads, stands, spelled, keeps, whole⟩ := comes
  obtain ⟨low, high, level⟩ := whole k _ here (by simp) (by simp) rfl
  obtain ⟨depth', onward, stop', r', c', reads', long, grown, stands', keeps'⟩ :=
    reads.arrives framed handlerless here (by simp) c stands low high level keeps
  cases spelled with
  | outside => exact absurd rfl called
  | @call q d rest at' before =>
    have spelled := Spelled.call (l := r.log) (p := q) at' before
    cases reads' with
    | trace here' known after =>
      cases here.symm.trans here'
      have next := (stands'.record here known c'.roots).next here (by simp) (by simp)
      have kept := (after.play framed handlerless c' next).2.trans keeps'
      refine ⟨q, spelled.grow (grown.trans ((recordTraceGrows ..).trans kept.grows)), ?_⟩
      exact kept.pathsOf t (pathRecorded (stands'.grows.traces ▸ known) q c'.roots)
    | _ => simp_all

theorem Recorded.passes (recorded : Recorded l []) (handlerless : l.Handlerless) :
    ∃ depth p, Reads l depth 0 p l.entries.size ∧ ∀ {m : RootLog}, Grows l m → Routed m →
      m.pass = (p.play none { log := m } m.beginning).1 := by
  obtain ⟨-, order, nested⟩ := recorded.nested
  obtain ⟨p, reads⟩ := nested.spine
  have shallow : order.length ≤ l.regions.size := by
    have inside : order ⊆ List.range l.regions.size :=
      fun g member => List.mem_range.mpr (nested.known g member)
    simpa using (nested.nodup.subperm inside).length_le
  refine ⟨_, p, reads, fun {m} grows _ => ?_⟩
  have outside : m.HandlersOutside := fun i start stop here =>
    absurd (grows.entries ▸ here) (handlerless i start stop)
  have size : m.entries.size = l.entries.size := by rw [grows.entries]
  exact Reads.pass outside (size ▸ reads.grow grows) (grows.regions ▸ shallow)

theorem standsFirst {m : RootLog} (grows : Grows l m) (routed : Routed m) :
    Stands l 0 none { log := m } :=
  ⟨grows, routed, trivial, rfl⟩

theorem solvedLast {P : RootLog → Prop} (step : ∀ m, P m → P m.pass.log) {s : Settings} {n : Nat}
    {l' : RootLog} : ∀ (fuel passes : Nat) {l : RootLog}, P l → solveFrom s fuel passes l = (.ok n, l') →
      ∃ m, P m ∧ l' = m.pass.log := by
  intro fuel
  induction fuel with
  | zero =>
    intro passes l _ ok
    cases ok
  | succ fuel ih =>
    intro passes l start ok
    rw [solveFrom] at ok
    simp only at ok
    split at ok
    · cases ok
      exact ⟨l, start, rfl⟩
    · split at ok
      · cases ok
      · exact ih _ (step l start) ok

theorem solvedKeeps {P : RootLog → Prop} (step : ∀ m, P m → P m.pass.log) {s : Settings} :
    ∀ (fuel passes : Nat) {l : RootLog}, P l → P (solveFrom s fuel passes l).2 := by
  intro fuel
  induction fuel with
  | zero => exact fun _ _ start => start
  | succ fuel ih =>
    intro passes l start
    rw [solveFrom]
    simp only
    split
    · exact step l start
    · split
      · exact step l start
      · exact ih _ (step l start)

theorem Handlerless.earlier (handlerless : l'.Handlerless) (onward : Onward l l') : l.Handlerless :=
  fun k start stop here => handlerless k start stop (onward.entry here (by simp))

theorem Recorded.passRouted (recorded : Recorded l []) (handlerless : l.Handlerless) {m : RootLog}
    (grows : Grows l m) (routed : Routed m) : Grows l m.pass.log ∧ Routed m.pass.log := by
  obtain ⟨depth, p, reads, same⟩ := recorded.passes handlerless
  have played := (reads.play recorded.framed handlerless m.beginning (standsFirst grows routed)).1
  rw [same grows routed]
  exact ⟨played.grows, played.routed⟩

theorem Onward.within (onward : Onward l l') (charted : Charted l) (paths : l'.paths = l.paths)
    {path : Option PathId} (knows : l.Knows path) : l'.within path = l.within path := by
  cases path with
  | none => rfl
  | some p =>
    have here : l.paths[p.index]? = some l.paths[p.index] := Array.getElem?_eq_getElem knows
    rw [withinCall here, withinCall (l := l') (by rw [paths, here]),
      onward.callees _ (pathsListed (charted.call _ _ here))]

theorem Routed.onward (routed : Routed l) (keyed : l.Keyed) (onward : Onward l l')
    (charted : Charted l') (paths : l'.paths = l.paths) (traces : ∀ t, l'.pathsOf t = l.pathsOf t) :
    Routed l' where
  charted := charted
  calls p d there := by
    have here := paths ▸ there
    obtain ⟨k, resume, entry, enclosing⟩ := routed.calls p d here
    obtain ⟨resume', entry', -⟩ := onward.push entry
    refine ⟨k, resume', entry', ?_⟩
    rw [onward.enclosing keyed (Nat.le_of_lt (known entry)), enclosing,
      onward.within routed.charted paths (routed.charted.knowsOuter here)]
  traces t p member := by
    obtain ⟨knows, k, entry, enclosing⟩ := routed.traces t p (traces t ▸ member)
    refine ⟨by rw [Knows, paths]; exact knows, k, onward.entry entry (by simp), ?_⟩
    rw [onward.enclosing keyed (Nat.le_of_lt (known entry)), enclosing,
      onward.within routed.charted paths knows]
  once t := traces t ▸ routed.once t

theorem pathsOfTrace (l : RootLog) (ip : Nat) (t : TraceId) :
    (l.trace ip).2.pathsOf t = l.pathsOf t := by
  have pushed : (l.trace ip).2.traceAt t =
      (l.traces.push ⟨ip, RootMap.empty l.mapSize, false, none, []⟩).getD t.index default := rfl
  rw [pathsOf, pathsOf, pushed, traceAt, Array.getD_eq_getD_getElem?, Array.getD_eq_getD_getElem?,
    Array.getElem?_push]
  split
  · rename_i at'
    rw [Array.getElem?_eq_none (by omega)]
    rfl
  · rfl

theorem pathsOfAttach (l : RootLog) (t u : TraceId) (address : PromiseId) (argument : Nat) :
    (l.attach t address argument).pathsOf u = l.pathsOf u := by
  simp only [pathsOf, traceAt, RootLog.attach, getDModify]
  split <;> rfl

theorem Recorded.routed (recorded : Recorded l opened) : l.Handlerless → Routed l := by
  induction recorded with
  | new codeLength mapSize =>
    intro _
    have none : ∀ t, (RootLog.new codeLength mapSize).pathsOf t = [] := fun t => rfl
    refine ⟨(Tallied.new codeLength mapSize).charted, fun p d here => by simp [RootLog.new] at here,
      fun t p member => ?_, fun t => ?_⟩
    · rw [none] at member
      cases member
    · rw [none]
      exact List.nodup_nil
  | visit before reached ih =>
    have charted := (Recorded.visit before reached).nested.1.charted
    obtain ⟨-, at', -, rfl⟩ := visitOk reached
    intro handlerless
    exact (ih (handlerless.earlier (.add _ rfl rfl))).onward before.framed.keyed (.add _ rfl rfl) charted
      rfl fun _ => rfl
  | mark before slot ih =>
    intro handlerless
    exact (ih (handlerless.earlier (.add _ rfl rfl))).onward before.framed.keyed (.add _ rfl rfl)
      (Recorded.mark before slot).nested.1.charted rfl fun _ => rfl
  | clear before slot ih =>
    intro handlerless
    exact (ih (handlerless.earlier (.add _ rfl rfl))).onward before.framed.keyed (.add _ rfl rfl)
      (Recorded.clear before slot).nested.1.charted rfl fun _ => rfl
  | enter before ih =>
    intro handlerless
    exact (ih (handlerless.earlier (.add _ rfl rfl))).onward before.framed.keyed (.add _ rfl rfl)
      (Recorded.enter before).nested.1.charted rfl fun _ => rfl
  | handle before start stop ih =>
    intro handlerless
    exact absurd (entriesLast ..) (handlerless _ start stop)
  | leave before ih =>
    intro handlerless
    exact (ih (handlerless.earlier (.add _ rfl rfl))).onward before.framed.keyed (.add _ rfl rfl)
      (Recorded.leave before).nested.1.charted rfl fun _ => rfl
  | @trace l _ before ip ih =>
    intro handlerless
    exact (ih (handlerless.earlier (.add _ rfl rfl))).onward before.framed.keyed (.add _ rfl rfl)
      (Recorded.trace before ip).nested.1.charted rfl (pathsOfTrace l ip)
  | @attach l _ before t address argument ih =>
    intro handlerless
    have onward : Onward l (l.attach t address argument) := .still rfl (fun _ => rfl) rfl
    exact (ih (handlerless.earlier onward)).onward before.framed.keyed onward
      (Recorded.attach before t address argument).nested.1.charted rfl
      fun u => pathsOfAttach l t u address argument
  | @call l _ before ip address closed ih =>
    intro handlerless
    have starts := startStarts l ip address
    refine (ih (handlerless.earlier (.start starts))).onward before.framed.keyed (.start starts)
      (Recorded.call before ip address closed).nested.1.charted starts.paths fun t => ?_
    rw [pathsOf, pathsOf, traceAt, starts.traces, traceAt]
  | @slot l _ before slot ih =>
    intro handlerless
    have onward := (onwardSlot l slot).1
    have same : (l.setReturnSlot slot).paths = l.paths ∧ (l.setReturnSlot slot).traces = l.traces := by
      unfold setReturnSlot
      split <;> exact ⟨rfl, rfl⟩
    refine (ih (handlerless.earlier onward)).onward before.framed.keyed onward
      (Recorded.slot before slot).nested.1.charted same.1 fun t => ?_
    rw [pathsOf, pathsOf, traceAt, same.2, traceAt]
  | @resume l _ sub before ih =>
    intro handlerless
    obtain ⟨-, order, nested⟩ := before.nested
    obtain ⟨⟨site, here, -⟩, -, -⟩ := nested.spine
    exact (ih (handlerless.earlier (.resume here))).onward before.framed.keyed (.resume here)
      (Recorded.resume before).nested.1.charted rfl fun _ => rfl
  | @solve l before s ih =>
    intro handlerless
    obtain ⟨tallied, -⟩ := before.nested
    have grows := (solveKept before.framed.keyed tallied.charted s).grows
    have bare : l.Handlerless := handlerless.earlier (.grow grows)
    exact (solvedKeeps (P := fun m => Grows l m ∧ Routed m)
      (fun m held => before.passRouted bare held.1 held.2) _ _ ⟨.refl l, ih bare⟩).2

theorem Grows.leads (grows : Grows l l') {chain : List CallSiteId} {inside : Option RegionId}
    (leads : l'.Leads chain inside) : l.Leads chain inside := by
  induction leads with
  | outside => exact .outside
  | @call site rest k resume here _ ih =>
    rw [grows.callees]
    exact .call (grows.entries ▸ here) (grows.enclosing k ▸ ih)

theorem Recorded.traced (recorded : Recorded l []) (handlerless : l.Handlerless)
    (once : l.BodiesOnce) {s : Settings} {n : Nat} (ok : l.solve s = (.ok n, l')) {k : Nat}
    {t : TraceId} (here : l.entries[k]? = some (.trace t)) {chain : List CallSiteId}
    (called : chain ≠ []) (leads : l.Leads chain (l.enclosing k)) :
    ∃ q, l'.Spelled (some q) chain ∧ q ∈ l'.pathsOf t := by
  have framed := recorded.framed
  obtain ⟨m, ⟨grows, routed⟩, rfl⟩ := solvedLast (P := fun m => Grows l m ∧ Routed m)
    (fun m held => recorded.passRouted handlerless held.1 held.2) _ _
    ⟨.refl l, recorded.routed handlerless⟩ ok
  obtain ⟨depth, p, reads, same⟩ := recorded.passes handlerless
  have start : Comes l m.pass.log [] none := by
    refine ⟨depth, 0, _, p, none, { log := m }, m.beginning, reads, standsFirst grows routed, .outside,
      ?_, fun i e at' _ _ inside => ⟨Nat.zero_le i, known at', ?_⟩⟩
    · rw [same grows routed]
      exact .refl _
    · rwa [RootLog.enclosing, List.head?_eq_none_iff] at inside
  exact (start.chain framed recorded.closed handlerless once leads).traced framed handlerless here called

end RootLog

end Lowering
