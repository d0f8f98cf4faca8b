import Lowering.Proofs.Replaying
/-!
Maps that a further replay leaves as they are.

A map is stale when it was used and changed later. In a pass without stale maps every map keeps,
from the step that last set it to the end of the pass, the value that the step relied on, so the
next pass takes the same steps and finds every map as it would set it. Paths are told apart by the
chain of calls they stand for: what is replayed below one call never touches a map of another.
-/
namespace Lowering

open Replay RootLog

namespace RootLog

variable {l l' : RootLog}

/-- Each path is listed with its call, comes after the path it extends, and is the only one that
extends that path by that call. -/
structure Charted (l : RootLog) : Prop where
  call : ∀ (p : Nat) d, l.paths[p]? = some d → ⟨p⟩ ∈ (l.call d.call).paths
  outer : ∀ (p : Nat) d o, l.paths[p]? = some d → d.outer = some o → o.index < p
  maps : ∀ (p : Nat) d, l.paths[p]? = some d → d.maps.size = l.maps.size
  listed : ∀ c p, p ∈ (l.call c).paths → ∃ d, l.paths[p.index]? = some d ∧ d.call = c
  single : ∀ (p q : Nat) d e, l.paths[p]? = some d → l.paths[q]? = some e → d.call = e.call →
    d.outer = e.outer → p = q

def Knows (l : RootLog) : Option PathId → Prop
  | none => True
  | some p => p.index < l.paths.size

inductive Below (l : RootLog) (outer : Option PathId) (site : CallSiteId) : Option PathId → Prop where
  | call {q : PathId} {d} (here : l.paths[q.index]? = some d) (by' : d.call = site)
      (extends' : d.outer = outer) : Below l outer site (some q)
  | deeper {q : PathId} {d} (here : l.paths[q.index]? = some d)
      (inner : Below l outer site d.outer) : Below l outer site (some q)

namespace Below

variable {outer q : Option PathId} {site site' : CallSiteId}

theorem knows (below : Below l outer site q) : l.Knows q := by
  cases below with
  | call here _ _ => exact (Array.getElem?_eq_some_iff.mp here).1
  | deeper here _ => exact (Array.getElem?_eq_some_iff.mp here).1

theorem grow (grows : Grows l l') (below : Below l outer site q) : Below l' outer site q := by
  induction below with
  | call here by' extends' =>
    obtain ⟨d, here', call, same, -⟩ := grows.paths _ _ here
    exact .call here' (call.trans by') (same.trans extends')
  | deeper here _ ih =>
    obtain ⟨d, here', -, same, -⟩ := grows.paths _ _ here
    exact .deeper here' (same ▸ ih)

theorem trans {p : PathId} (first : Below l outer site (some p))
    (below : Below l (some p) site' q) : Below l outer site q := by
  induction below with
  | call here _ extends' => exact .deeper here (extends' ▸ first)
  | deeper here _ ih => exact .deeper here ih

theorem later (charted : Charted l) (below : Below l outer site q) :
    ∀ {o p : PathId}, outer = some o → q = some p → o.index < p.index := by
  induction below with
  | call here _ extends' =>
    rintro o p rfl ⟨⟩
    exact charted.outer _ _ o here extends'
  | @deeper q d here inner ih =>
    rintro o p rfl ⟨⟩
    cases same : d.outer with
    | none => rw [same] at inner; cases inner
    | some m => exact Nat.lt_trans (ih rfl same) (charted.outer _ _ m here same)

theorem ne (charted : Charted l) (below : Below l outer site q) : q ≠ outer := by
  rintro rfl
  cases q with
  | none => cases below
  | some p => exact Nat.lt_irrefl _ (below.later charted rfl rfl)

theorem unique (charted : Charted l) (below : Below l outer site q)
    (other : Below l outer site' q) : site = site' := by
  induction below with
  | @call q d here by' extends' =>
    cases other with
    | call here' by'' _ => rw [← by', ← by'', Option.some.inj (here.symm.trans here')]
    | deeper here' inner =>
      cases Option.some.inj (here.symm.trans here')
      exact absurd extends' (inner.ne charted)
  | @deeper q d here inner ih =>
    cases other with
    | call here' _ extends' =>
      cases Option.some.inj (here.symm.trans here')
      exact absurd extends' (inner.ne charted)
    | deeper here' inner' =>
      cases Option.some.inj (here.symm.trans here')
      exact ih inner'

end Below

inductive Place where
  | instruction (ip : Nat)
  | trace (t : TraceId)
  deriving DecidableEq

def held (l : RootLog) (path : Option PathId) : Place → Option RootMap
  | .instruction ip => some ((⟨l, false⟩ : Replay).mapAt path ip)
  | .trace t =>
    match path with
    | none => some (l.traceAt t).map
    | some p => ((l.traceAt t).paths.find? (·.path == p)).map (·.map)

theorem Knows.grow {path : Option PathId} (grows : Grows l l') (knows : l.Knows path) :
    l'.Knows path := by
  cases path with
  | none => trivial
  | some p =>
    obtain ⟨d, here, -⟩ := grows.paths p.index _ (Array.getElem?_eq_getElem knows)
    exact (Array.getElem?_eq_some_iff.mp here).1

end RootLog

section Held

variable {r : Replay} {path : Option PathId}

theorem heldSetMap (charted : Charted r.log) (knows : r.log.Knows path) {ip : Nat}
    (inside : ip < r.log.maps.size) (m : RootMap) (q : Option PathId) (x : Place) :
    (r.setMap path ip m).log.held q x =
      if q = path ∧ x = .instruction ip then some m else r.log.held q x := by
  cases x with
  | trace t => cases path <;> simp [setMap, held, traceAt]
  | instruction other =>
    cases path with
    | none =>
      cases q with
      | none =>
        simp only [setMap, held, mapAt, getDModify]
        grind
      | some q => simp [setMap, held, mapAt]
    | some p =>
      cases q with
      | none => simp [setMap, held, mapAt]
      | some q =>
        have size := charted.maps p.index _ (Array.getElem?_eq_getElem knows)
        simp only [setMap, held, mapAt, getDModify]
        by_cases same : q = p
        · subst same
          have whole : (r.log.paths.getD q.index default).maps.size = r.log.maps.size := by
            rw [Array.getD_eq_getD_getElem?, Array.getElem?_eq_getElem knows]
            exact size
          rw [if_pos ⟨rfl, knows⟩]
          simp only [getDModify, whole]
          grind
        · have apart : p.index ≠ q.index := fun h => same (by cases p; cases q; simp_all)
          simp [same, apart]

theorem setPathMapFind (p q : PathId) (roots : RootMap) (ts : List PathTrace) :
    ((setPathMap p roots ts).1.find? (·.path == q)).map (·.map) =
      if q = p then some roots else (ts.find? (·.path == q)).map (·.map) := by
  induction ts with
  | nil =>
    by_cases same : q = p
    · simp [setPathMap, same]
    · simp [setPathMap, same, Ne.symm same]
  | cons t rest ih =>
    by_cases here : t.path = p
    · by_cases same : q = p
      · simp [setPathMap, here, same]
      · simp [setPathMap, here, same, Ne.symm same]
    · simp only [setPathMap, here, if_false, List.find?_cons]
      by_cases found : t.path = q
      · have apart : q ≠ p := fun h => here (found.trans h)
        simp [found, apart]
      · have other : (t.path == q) = false := by simpa using found
        simpa only [other] using ih

theorem heldRecord {t : TraceId} (known : t.index < r.log.traces.size) (roots : RootMap)
    (q : Option PathId) (x : Place) :
    (r.recordTrace t path roots).log.held q x =
      if q = path ∧ x = .trace t then some roots else r.log.held q x := by
  cases x with
  | instruction ip =>
    rw [recordTraceLog]
    simp [held, mapAt]
  | trace u =>
    simp only [held, traceAtRecord t u path roots known, Place.trace.injEq]
    by_cases same : u = t
    · subst same
      cases path <;> cases q <;> simp [retraced, setPathMapFind]
    · simp [same]

theorem heldHandler (start stop : Nat) (q : Option PathId) (x : Place) :
    (r.handlerRoots none start stop).2.log.held q x = r.log.held q x := by
  cases x with
  | instruction ip => rfl
  | trace t =>
    simp only [held, traceAtHandler]
    split <;> split <;> rfl

theorem heldWithPath (l : RootLog) (site : CallSiteId) (q : Option PathId) (knows : l.Knows q)
    (x : Place) : (withPath l site path).held q x = l.held q x := by
  cases x with
  | trace t => rfl
  | instruction ip =>
    cases q with
    | none => rfl
    | some q =>
      simp only [held, mapAt, withPath, Array.getD_eq_getD_getElem?]
      rw [Array.getElem?_push_lt knows, Array.getElem?_eq_getElem knows]

end Held

namespace RootLog

variable {l l' : RootLog}

theorem Charted.reshaped (charted : Charted l) (calls : l'.calls = l.calls)
    (maps : l'.maps.size = l.maps.size)
    (paths : ∀ (p : Nat) d', l'.paths[p]? = some d' → ∃ d, l.paths[p]? = some d ∧
      d'.call = d.call ∧ d'.outer = d.outer ∧ d'.maps.size = d.maps.size)
    (kept : ∀ (p : Nat) d, l.paths[p]? = some d → ∃ d', l'.paths[p]? = some d' ∧ d'.call = d.call) :
    Charted l' where
  call p d' here := by
    obtain ⟨d, before, call, -⟩ := paths p d' here
    have member := charted.call p d before
    simpa only [RootLog.call, calls, call] using member
  outer p d' o here extends' := by
    obtain ⟨d, before, -, outer, -⟩ := paths p d' here
    exact charted.outer p d o before (outer ▸ extends')
  maps p d' here := by
    obtain ⟨d, before, -, -, size⟩ := paths p d' here
    rw [size, maps, charted.maps p d before]
  listed c p member := by
    simp only [RootLog.call, calls] at member
    obtain ⟨d, before, call⟩ := charted.listed c p member
    obtain ⟨d', after, same⟩ := kept p.index d before
    exact ⟨d', after, same.trans call⟩
  single p q d' e' here there call outer := by
    obtain ⟨d, before, call₁, outer₁, -⟩ := paths p d' here
    obtain ⟨e, before', call₂, outer₂, -⟩ := paths q e' there
    exact charted.single p q d e before before' (by rw [← call₁, ← call₂, call])
      (by rw [← outer₁, ← outer₂, outer])

theorem Charted.withPath (charted : Charted l) {site : CallSiteId} {path : Option PathId}
    (known : site.index < l.calls.size) (knows : l.Knows path)
    (fresh : ∀ p ∈ (l.call site).paths, (l.path p).outer ≠ path) :
    Charted (withPath l site path) := by
  have pathOf : ∀ {p : Nat} {d}, l.paths[p]? = some d → l.path ⟨p⟩ = d := by
    intro p d here
    rw [RootLog.path, Array.getD_eq_getD_getElem?, here]
    rfl
  have split : ∀ {p : Nat} {d}, (Replay.withPath l site path).paths[p]? = some d →
      l.paths[p]? = some d ∨ p = l.paths.size ∧ d.call = site ∧ d.outer = path ∧
        d.maps.size = l.maps.size := by
    intro p d here
    simp only [Replay.withPath, Array.getElem?_push] at here
    split at here
    · rename_i same
      cases here
      exact .inr ⟨same, rfl, rfl, by simp⟩
    · exact .inl here
  constructor
  case call =>
    intro p d here
    rw [callWithPath l site path d.call known]
    rcases split here with before | ⟨rfl, rfl, -, -⟩
    · have member := charted.call p d before
      split
      · exact List.mem_append_left _ member
      · exact member
    · rw [if_pos rfl]
      exact List.mem_append_right _ (List.mem_singleton.mpr rfl)
  case outer =>
    intro p d o here extends'
    rcases split here with before | ⟨rfl, -, same, -⟩
    · exact charted.outer p d o before extends'
    · rw [← same, extends'] at knows
      exact knows
  case maps =>
    intro p d here
    rcases split here with before | ⟨-, -, -, size⟩
    · exact charted.maps p d before
    · exact size
  case listed =>
    intro c p member
    rw [callWithPath l site path c known] at member
    split at member
    · rename_i same
      rcases List.mem_append.mp member with old | new
      · obtain ⟨d, before, call⟩ := charted.listed c p old
        obtain ⟨d', after, call', -⟩ := (withPathGrows l site path).paths p.index d before
        exact ⟨d', after, call'.trans call⟩
      · cases List.mem_singleton.mp new
        exact ⟨_, pathsWithPath l site path, same.symm⟩
    · obtain ⟨d, before, call⟩ := charted.listed c p member
      obtain ⟨d', after, call', -⟩ := (withPathGrows l site path).paths p.index d before
      exact ⟨d', after, call'.trans call⟩
  case single =>
    intro p q d e here there call outer
    rcases split here with before | ⟨rfl, site₁, outer₁, -⟩
    · rcases split there with before' | ⟨rfl, site₂, outer₂, -⟩
      · exact charted.single p q d e before before' call outer
      · refine absurd ?_ (fresh ⟨p⟩ ?_)
        · rw [pathOf before, outer, outer₂]
        · rw [← site₂, ← call]
          exact charted.call p d before
    · rcases split there with before' | ⟨rfl, -, -, -⟩
      · refine absurd ?_ (fresh ⟨q⟩ ?_)
        · rw [pathOf before', ← outer, outer₁]
        · rw [← site₁, call]
          exact charted.call q e before'
      · rfl

end RootLog

namespace Passage

variable (l : RootLog)

/-- The places that a replay of the passage sets, on the path it is replayed on. A repeated visit
that ends its context only compares. -/
def writes : Passage → List Place
  | .done => []
  | .mark _ rest | .clear _ rest | .call _ _ rest => rest.writes
  | .visit ip last rest =>
    if last && decide (1 < l.visitCount ip) then rest.writes
    else .instruction ip :: rest.writes
  | .trace t rest => .trace t :: rest.writes
  | .context body rest | .handler _ _ body rest => body.writes ++ rest.writes

def notes : Passage → List Place
  | .done => []
  | .mark _ rest | .clear _ rest | .call _ _ rest => rest.notes
  | .visit ip _ rest => .instruction ip :: rest.notes
  | .trace t rest => .trace t :: rest.notes
  | .context body rest | .handler _ _ body rest => body.notes ++ rest.notes

def calls : Passage → List CallSiteId
  | .done => []
  | .mark _ rest | .clear _ rest | .visit _ _ rest | .trace _ rest => rest.calls
  | .context body rest | .handler _ _ body rest => body.calls ++ rest.calls
  | .call site _ rest => site :: rest.calls

def Handlerless : Passage → Prop
  | .done => True
  | .mark _ rest | .clear _ rest | .visit _ _ rest | .trace _ rest | .call _ _ rest =>
    rest.Handlerless
  | .context body rest => body.Handlerless ∧ rest.Handlerless
  | .handler .. => False

/-- What comes later sets no place that was relied on before and repeats no call, and handlers stay
outside subroutines. -/
def Orderly : Passage → Prop
  | .done => True
  | .mark _ rest | .clear _ rest => rest.Orderly
  | .visit ip _ rest => ip < l.maps.size ∧ .instruction ip ∉ rest.writes l ∧ rest.Orderly
  | .trace t rest => t.index < l.traces.size ∧ .trace t ∉ rest.writes l ∧ rest.Orderly
  | .context body rest | .handler _ _ body rest =>
    (∀ x ∈ body.notes, x ∉ rest.writes l) ∧ (∀ c ∈ body.calls, c ∉ rest.calls) ∧
      body.Orderly ∧ rest.Orderly
  | .call site body rest =>
    site.index < l.calls.size ∧ site ∉ rest.calls ∧ body.Handlerless ∧ body.Orderly ∧ rest.Orderly

end Passage

section Steps

variable {r : Replay}

theorem arriveLog (path : Option PathId) (ip : Nat) (roots : RootMap) (last : Bool) :
    ∃ m, (r.arrive path ip roots last).2.log = (r.setMap path ip m).log := by
  unfold arrive
  split
  · exact ⟨_, rfl⟩
  · exact ⟨_, rfl⟩

theorem setMapCharted (charted : Charted r.log) (path : Option PathId) (ip : Nat) (m : RootMap) :
    Charted (r.setMap path ip m).log := by
  cases path with
  | none =>
    exact charted.reshaped rfl (by simp [setMap]) (fun _ d here => ⟨d, here, rfl, rfl, rfl⟩)
      (fun _ d here => ⟨d, here, rfl⟩)
  | some q =>
    refine charted.reshaped rfl rfl (fun p d' here => ?_) (fun p d here => ?_)
    · simp only [setMap, Array.getElem?_modify] at here
      split at here
      · obtain ⟨d, before, rfl⟩ := Option.map_eq_some_iff.mp here
        exact ⟨d, before, rfl, rfl, by simp⟩
      · exact ⟨d', here, rfl, rfl, rfl⟩
    · obtain ⟨d', after, call, -⟩ := (setMapGrows (some q) ip m).paths p d here
      exact ⟨d', after, call⟩

theorem arriveCharted (charted : Charted r.log) (path : Option PathId) (ip : Nat) (roots : RootMap)
    (last : Bool) : Charted (r.arrive path ip roots last).2.log := by
  obtain ⟨m, same⟩ := arriveLog (r := r) path ip roots last
  rw [same]
  exact setMapCharted charted path ip m

theorem recordTraceCharted (charted : Charted r.log) (t : TraceId) (path : Option PathId)
    (roots : RootMap) : Charted (r.recordTrace t path roots).log := by
  rw [recordTraceLog]
  exact charted.reshaped rfl rfl (fun _ d here => ⟨d, here, rfl, rfl, rfl⟩)
    (fun _ d here => ⟨d, here, rfl⟩)

theorem handlerRootsCharted (charted : Charted r.log) (start stop : Nat) :
    Charted (r.handlerRoots none start stop).2.log :=
  charted.reshaped rfl rfl (fun _ d here => ⟨d, here, rfl, rfl, rfl⟩)
    (fun _ d here => ⟨d, here, rfl⟩)

theorem pathForCharted (charted : Charted r.log) {site : CallSiteId} {path : Option PathId}
    (known : site.index < r.log.calls.size) (knows : r.log.Knows path) :
    Charted (r.pathFor site path).2.log := by
  obtain ⟨p, -, -, found⟩ | ⟨fresh, made⟩ := r.pathForCases site path
  · rw [found]
    exact charted
  · rw [made]
    exact charted.withPath known knows fresh

theorem pathForExtends (charted : Charted r.log) (site : CallSiteId) (path : Option PathId) :
    ∃ d, (r.pathFor site path).2.log.paths[(r.pathFor site path).1.index]? = some d ∧
      d.call = site ∧ d.outer = path := by
  obtain ⟨p, member, outer, found⟩ | ⟨-, made⟩ := r.pathForCases site path
  · rw [found]
    obtain ⟨d, here, call⟩ := charted.listed site p member
    refine ⟨d, here, call, ?_⟩
    rw [RootLog.path, Array.getD_eq_getD_getElem?, here] at outer
    exact outer
  · rw [made]
    exact ⟨_, pathsWithPath r.log site path, rfl, rfl⟩

theorem pathForBelow (charted : Charted r.log) (site : CallSiteId) (path : Option PathId) :
    Below (r.pathFor site path).2.log path site (some (r.pathFor site path).1) := by
  obtain ⟨d, here, call, outer⟩ := pathForExtends charted site path
  exact .call here call outer

theorem heldArrive (charted : Charted r.log) {path : Option PathId} (knows : r.log.Knows path)
    {ip : Nat} (inside : ip < r.log.maps.size) {roots : RootMap} {last : Bool}
    (fresh : (r.arrive path ip roots last).2.stale = false) {q : Option PathId} {x : Place}
    (apart : q = path → x = .instruction ip → last ∧ 1 < r.log.visitCount ip) :
    (r.arrive path ip roots last).2.log.held q x = r.log.held q x := by
  unfold arrive at fresh ⊢
  split
  · rename_i repeated
    simp only [repeated, if_true] at fresh
    simp only
    rw [heldSetMap charted knows inside]
    split
    · rename_i same
      obtain ⟨rfl, rfl⟩ := same
      have last := (apart rfl rfl).1
      simp only [last, Bool.and_true, Bool.or_eq_false_iff, bne_eq_false_iff_eq] at fresh
      rw [fresh.2]
      rfl
    · rfl
  · rename_i single
    simp only
    rw [heldSetMap charted knows inside, if_neg]
    rintro ⟨rfl, rfl⟩
    exact single (apart rfl rfl).2

theorem arriveFresh {path : Option PathId} {ip : Nat} {roots : RootMap} {last : Bool}
    (fresh : (r.arrive path ip roots last).2.stale = false) : r.stale = false := by
  unfold arrive at fresh
  split at fresh
  · cases path <;> exact (Bool.or_eq_false_iff.mp fresh).1
  · cases path <;> exact fresh

theorem recordTraceFresh {t : TraceId} {path : Option PathId} {roots : RootMap}
    (fresh : (r.recordTrace t path roots).stale = false) : r.stale = false := by
  cases path <;> exact (Bool.or_eq_false_iff.mp fresh).1

theorem pathForStale (site : CallSiteId) (path : Option PathId) :
    (r.pathFor site path).2.stale = r.stale := by
  obtain ⟨p, -, -, found⟩ | ⟨-, made⟩ := r.pathForCases site path
  · rw [found]
  · rw [made]

end Steps

namespace Passage

variable {l : RootLog}

theorem playFresh (p : Passage) : ∀ (path : Option PathId) (r : Replay) (c : Cursor),
    (p.play path r c).1.stale = false → r.stale = false := by
  induction p with
  | done => exact fun _ _ _ fresh => fresh
  | mark _ _ ih | clear _ _ ih => exact fun _ _ _ fresh => ih _ _ _ fresh
  | visit ip last rest ih => exact fun _ _ _ fresh => arriveFresh (ih _ _ _ fresh)
  | trace t rest ih => exact fun _ _ _ fresh => recordTraceFresh (ih _ _ _ fresh)
  | context body rest ihBody ihRest =>
    exact fun _ _ _ fresh => ihBody _ _ _ (ihRest _ _ _ fresh)
  | handler start stop body rest ihBody ihRest =>
    intro path r c fresh
    exact ihBody none (r.handlerRoots none start stop).2 _ (ihRest _ _ _ fresh)
  | call site body rest ihBody ihRest =>
    intro path r c fresh
    rw [← pathForStale site path]
    exact ihBody _ _ _ (ihRest _ _ _ fresh)

structure Ready (l : RootLog) (p : Passage) (path : Option PathId) (r : Replay) : Prop where
  grows : Grows l r.log
  orderly : p.Orderly l
  charted : Charted r.log
  knows : r.log.Knows path
  outside : path = none ∨ p.Handlerless

namespace Ready

variable {p body rest : Passage} {path : Option PathId} {r : Replay} {c : Cursor}

theorem visit {ip : Nat} {last : Bool} (ready : Ready l (.visit ip last rest) path r) :
    Ready l rest path (r.arrive path ip c.roots last).2 where
  grows := ready.grows.trans (r.arriveGrows ..)
  orderly := ready.orderly.2.2
  charted := arriveCharted ready.charted ..
  knows := ready.knows.grow (r.arriveGrows ..)
  outside := ready.outside

theorem trace {t : TraceId} (ready : Ready l (.trace t rest) path r) :
    Ready l rest path (r.recordTrace t path c.roots) where
  grows := ready.grows.trans (r.recordTraceGrows ..)
  orderly := ready.orderly.2.2
  charted := recordTraceCharted ready.charted ..
  knows := ready.knows.grow (r.recordTraceGrows ..)
  outside := ready.outside

theorem context (ready : Ready l (.context body rest) path r) : Ready l body path r where
  grows := ready.grows
  orderly := ready.orderly.2.2.1
  charted := ready.charted
  knows := ready.knows
  outside := ready.outside.imp_right And.left

theorem handler {start stop : Nat} (ready : Ready l (.handler start stop body rest) path r) :
    Ready l body none (r.handlerRoots none start stop).2 where
  grows := ready.grows.trans (r.handlerRootsGrows ..)
  orderly := ready.orderly.2.2.1
  charted := handlerRootsCharted ready.charted ..
  knows := trivial
  outside := .inl rfl

theorem call {site : CallSiteId} (ready : Ready l (.call site body rest) path r) :
    Ready l body (some (r.pathFor site path).1) (r.pathFor site path).2 where
  grows := ready.grows.trans (r.pathForGrows ..)
  orderly := ready.orderly.2.2.2.1
  charted := pathForCharted ready.charted (ready.grows.calls ▸ ready.orderly.1) ready.knows
  knows := (pathForBelow ready.charted site path).knows
  outside := .inr ready.orderly.2.2.1

theorem afterContext (ready : Ready l (.context body rest) path r)
    (charted : Charted (body.play path r c).1.log) : Ready l rest path (body.play path r c).1 where
  grows := ready.grows.trans (body.playGrows ..)
  orderly := ready.orderly.2.2.2
  charted := charted
  knows := ready.knows.grow (body.playGrows ..)
  outside := ready.outside.imp_right And.right

theorem afterHandler {start stop : Nat} (ready : Ready l (.handler start stop body rest) path r)
    (charted : Charted (body.play none (r.handlerRoots none start stop).2 c).1.log) :
    Ready l rest path (body.play none (r.handlerRoots none start stop).2 c).1 where
  grows := (ready.grows.trans (r.handlerRootsGrows ..)).trans (body.playGrows ..)
  orderly := ready.orderly.2.2.2
  charted := charted
  knows := (ready.knows.grow (r.handlerRootsGrows ..)).grow (body.playGrows ..)
  outside := .inl (ready.outside.resolve_right id)

theorem afterCall {site : CallSiteId} (ready : Ready l (.call site body rest) path r)
    (charted : Charted
      (body.play (some (r.pathFor site path).1) (r.pathFor site path).2 c).1.log) :
    Ready l rest path (body.play (some (r.pathFor site path).1) (r.pathFor site path).2 c).1 where
  grows := (ready.grows.trans (r.pathForGrows ..)).trans (body.playGrows ..)
  orderly := ready.orderly.2.2.2.2
  charted := charted
  knows := (ready.knows.grow (r.pathForGrows ..)).grow (body.playGrows ..)
  outside := ready.outside

end Ready

theorem playCharted (p : Passage) : ∀ {path : Option PathId} {r : Replay} {c : Cursor},
    Ready l p path r → Charted (p.play path r c).1.log := by
  induction p with
  | done => exact fun ready => ready.charted
  | mark _ _ ih | clear _ _ ih => exact fun ready => ih { ready with }
  | visit ip last rest ih => exact fun ready => ih ready.visit
  | trace t rest ih => exact fun ready => ih ready.trace
  | context body rest ihBody ihRest =>
    exact fun ready => ihRest (ready.afterContext (ihBody ready.context))
  | handler start stop body rest ihBody ihRest =>
    exact fun ready => ihRest (ready.afterHandler (ihBody ready.handler))
  | call site body rest ihBody ihRest =>
    exact fun ready => ihRest (ready.afterCall (ihBody ready.call))

/- What a passage does not set stays, as long as nothing becomes stale: it sets places of its own
path, and below its calls. -/
theorem playFrame (p : Passage) : ∀ {path : Option PathId} {r : Replay} {c : Cursor},
    Ready l p path r → (p.play path r c).1.stale = false →
    ∀ {q : Option PathId} {x : Place}, r.log.Knows q → (q = path → x ∉ p.writes l) →
      (∀ site ∈ p.calls, ¬ Below (p.play path r c).1.log path site q) →
      (p.play path r c).1.log.held q x = r.log.held q x := by
  induction p with
  | done => intros; rfl
  | mark _ _ ih | clear _ _ ih => exact fun ready => ih { ready with }
  | visit ip last rest ih =>
    intro path r c ready fresh q x known apart away
    rw [playVisit] at fresh away ⊢
    have grown := r.arriveGrows path ip c.roots last
    rw [ih ready.visit fresh (known.grow grown) ?_ away]
    · refine heldArrive ready.charted ready.knows (ready.grows.maps ▸ ready.orderly.1)
        (rest.playFresh _ _ _ fresh) fun same at' => ?_
      have outside := apart same
      simp only [writes, at'] at outside
      split at outside
      · rename_i settled
        simp only [Bool.and_eq_true, decide_eq_true_eq] at settled
        rw [visitCount, ready.grows.visits]
        exact settled
      · exact absurd List.mem_cons_self outside
    · intro same hit
      refine apart same ?_
      simp only [writes]
      split
      · exact hit
      · exact List.mem_cons_of_mem _ hit
  | trace t rest ih =>
    intro path r c ready fresh q x known apart away
    rw [playTrace] at fresh away ⊢
    have grown := r.recordTraceGrows t path c.roots
    rw [ih ready.trace fresh (known.grow grown)
      (fun same hit => apart same (List.mem_cons_of_mem _ hit)) away]
    rw [heldRecord (ready.grows.traces ▸ ready.orderly.1), if_neg]
    rintro ⟨same, rfl⟩
    exact apart same List.mem_cons_self
  | context body rest ihBody ihRest =>
    intro path r c ready fresh q x known apart away
    rw [playContext] at fresh away ⊢
    have later := ready.afterContext (body.playCharted (c := c.entered) ready.context)
    have grown := body.playGrows path r c.entered
    rw [ihRest later fresh (known.grow grown)
      (fun same hit => apart same (List.mem_append_right _ hit))
      (fun site member => away site (List.mem_append_right _ member))]
    exact ihBody ready.context (rest.playFresh _ _ _ fresh) known
      (fun same hit => apart same (List.mem_append_left _ hit))
      (fun site member below => away site (List.mem_append_left _ member)
        (below.grow (rest.playGrows ..)))
  | handler start stop body rest ihBody ihRest =>
    intro path r c ready fresh q x known apart away
    obtain rfl : path = none := ready.outside.resolve_right id
    rw [playHandler] at fresh away ⊢
    have later := ready.afterHandler (c := .handling (r.handlerRoots none start stop).1)
      (body.playCharted ready.handler)
    have watching := known.grow (r.handlerRootsGrows start stop)
    rw [ihRest later fresh (watching.grow (body.playGrows ..))
      (fun same hit => apart same (List.mem_append_right _ hit))
      (fun site member => away site (List.mem_append_right _ member))]
    rw [ihBody ready.handler (rest.playFresh _ _ _ fresh) watching
      (fun same hit => apart same (List.mem_append_left _ hit))
      (fun site member below => away site (List.mem_append_left _ member)
        (below.grow (rest.playGrows ..)))]
    exact heldHandler ..
  | call site body rest ihBody ihRest =>
    intro path r c ready fresh q x known apart away
    rw [playCall] at fresh away ⊢
    have later := ready.afterCall (c := c.called (r.pathFor site path).2.log)
      (body.playCharted ready.call)
    have pathed := known.grow (r.pathForGrows site path)
    -- whatever the body sets lies below this call
    have below := (pathForBelow ready.charted site path).grow (body.playGrows
      (some (r.pathFor site path).1) (r.pathFor site path).2 (c.called (r.pathFor site path).2.log))
    have here : ¬ Below _ path site q := away site List.mem_cons_self
    have left : q ≠ some (r.pathFor site path).1 := by
      rintro rfl
      exact here (below.grow (rest.playGrows ..))
    rw [ihRest later fresh (pathed.grow (body.playGrows ..)) apart
      (fun other member => away other (List.mem_cons_of_mem _ member))]
    rw [ihBody ready.call (rest.playFresh _ _ _ fresh) pathed
      (fun same => absurd same left)
      (fun other _ inner => here ((below.trans inner).grow (rest.playGrows ..)))]
    obtain ⟨p, -, -, found⟩ | ⟨-, made⟩ := r.pathForCases site path
    · rw [found]
    · rw [made]
      exact heldWithPath r.log site q known x

theorem arriveTraces (r : Replay) (path : Option PathId) (ip : Nat) (roots : RootMap) (last : Bool)
    (t : TraceId) : (r.arrive path ip roots last).2.log.traceAt t = r.log.traceAt t := by
  obtain ⟨m, same⟩ := arriveLog (r := r) path ip roots last
  rw [same]
  cases path <;> rfl

theorem pathForTraces (r : Replay) (site : CallSiteId) (path : Option PathId) (t : TraceId) :
    (r.pathFor site path).2.log.traceAt t = r.log.traceAt t := by
  obtain ⟨p, -, -, found⟩ | ⟨-, made⟩ := r.pathForCases site path
  · rw [found]
  · rw [made]
    rfl

theorem recordTraceWatched {r : Replay} {t u : TraceId} {path : Option PathId} {roots : RootMap}
    (known : t.index < r.log.traces.size) (fresh : (r.recordTrace t path roots).stale = false)
    (watched : (r.log.traceAt u).watched) :
    ((r.recordTrace t path roots).log.traceAt u).map = (r.log.traceAt u).map := by
  rw [traceAtRecord t u path roots known]
  split
  · rename_i same
    subst same
    cases path with
    | none =>
      have unchanged := (Bool.or_eq_false_iff.mp fresh).2
      simp only [watched, Bool.true_and, bne_eq_false_iff_eq] at unchanged
      exact unchanged.symm
    | some p => rfl
  · rfl

theorem playWatched (p : Passage) : ∀ {path : Option PathId} {r : Replay} {c : Cursor},
    Ready l p path r → (p.play path r c).1.stale = false → ∀ {t : TraceId},
      (r.log.traceAt t).watched → ((p.play path r c).1.log.traceAt t).map = (r.log.traceAt t).map := by
  induction p with
  | done => intros; rfl
  | mark _ _ ih | clear _ _ ih => exact fun ready => ih { ready with }
  | visit ip last rest ih =>
    intro path r c ready fresh t watched
    rw [playVisit] at fresh ⊢
    rw [ih ready.visit fresh ((arriveTraces r path ip c.roots last t).symm ▸ watched), arriveTraces]
  | trace u rest ih =>
    intro path r c ready fresh t watched
    rw [playTrace] at fresh ⊢
    rw [ih ready.trace fresh ((r.recordTraceGrows u path c.roots).watched t watched)]
    exact recordTraceWatched (ready.grows.traces ▸ ready.orderly.1) (rest.playFresh _ _ _ fresh)
      watched
  | context body rest ihBody ihRest =>
    intro path r c ready fresh t watched
    rw [playContext] at fresh ⊢
    rw [ihRest (ready.afterContext (body.playCharted ready.context)) fresh
      ((body.playGrows ..).watched t watched)]
    exact ihBody ready.context (rest.playFresh _ _ _ fresh) watched
  | handler start stop body rest ihBody ihRest =>
    intro path r c ready fresh t watched
    rw [playHandler] at fresh ⊢
    have watching := (r.handlerRootsGrows start stop).watched t watched
    rw [ihRest (ready.afterHandler (body.playCharted ready.handler)) fresh
      ((body.playGrows ..).watched t watching)]
    rw [ihBody ready.handler (rest.playFresh _ _ _ fresh) watching, traceAtHandler]
    split <;> rfl
  | call site body rest ihBody ihRest =>
    intro path r c ready fresh t watched
    rw [playCall] at fresh ⊢
    have watching : ((r.pathFor site path).2.log.traceAt t).watched := by
      rw [pathForTraces]
      exact watched
    rw [ihRest (ready.afterCall (body.playCharted ready.call)) fresh
      ((body.playGrows ..).watched t watching)]
    rw [ihBody ready.call (rest.playFresh _ _ _ fresh) watching, pathForTraces]

end Passage

theorem RootMap.interAgain (a b : RootMap) : (a.inter b).inter b = a.inter b := by
  obtain ⟨xs⟩ := a
  obtain ⟨ys⟩ := b
  simp only [inter, RootMap.mk.injEq]
  induction xs generalizing ys with
  | nil => rfl
  | cons x xs ih =>
    cases ys with
    | nil => rfl
    | cons y ys => simp [ih]

theorem modifySame {α : Type} {xs : Array α} {i : Nat} {f : α → α}
    (same : ∀ x, xs[i]? = some x → f x = x) : xs.modify i f = xs := by
  apply Array.ext_getElem?
  intro j
  rw [Array.getElem?_modify]
  split
  · rename_i here
    subst here
    cases at' : xs[i]? with
    | none => rfl
    | some x => simp [same x at']
  · rfl

def RootLog.still (l : RootLog) : Replay := ⟨l, false⟩

theorem stillLog (l : RootLog) : l.still.log = l := rfl

section Still

variable {l : RootLog} {r : Replay} {path : Option PathId} {roots : RootMap}

theorem setMapStill {ip : Nat} {m : RootMap} (same : l.still.mapAt path ip = m) :
    l.still.setMap path ip m = l.still := by
  subst same
  cases path with
  | none =>
    have maps : l.maps.modify ip (fun _ => l.still.mapAt none ip) = l.maps := by
      refine modifySame fun x here => ?_
      simp [still, mapAt, here]
    simp only [setMap]
    rw [still] at maps ⊢
    simp only [maps]
  | some p =>
    have paths : l.paths.modify p.index (fun d => { d with
        maps := d.maps.modify ip fun _ => l.still.mapAt (some p) ip }) = l.paths := by
      refine modifySame fun d here => ?_
      have maps : d.maps.modify ip (fun _ => l.still.mapAt (some p) ip) = d.maps := by
        refine modifySame fun x there => ?_
        simp [still, mapAt, here, there]
      rw [maps]
    simp only [setMap]
    rw [still] at paths ⊢
    simp only [paths]

theorem arriveStill {ip : Nat} {last : Bool} (charted : Charted r.log) (knows : r.log.Knows path)
    (inside : ip < r.log.maps.size) (grows : Grows r.log l)
    (same : l.held path (.instruction ip) =
      (r.arrive path ip roots last).2.log.held path (.instruction ip)) :
    l.still.arrive path ip roots last = ((r.arrive path ip roots last).1, l.still) := by
  have visits : l.still.log.visitCount ip = r.log.visitCount ip := by
    rw [visitCount, visitCount, ← grows.visits]
    rfl
  unfold arrive at same ⊢
  by_cases repeated : r.log.visitCount ip > 1
  · simp only [repeated, if_true, visits] at same ⊢
    rw [heldSetMap charted knows inside, if_pos ⟨rfl, rfl⟩] at same
    have old : l.still.mapAt path ip = (r.mapAt path ip).inter roots := Option.some.inj same
    have met : (l.still.mapAt path ip).inter roots = l.still.mapAt path ip := by
      rw [old, RootMap.interAgain]
    rw [met, setMapStill rfl, old]
    simp [still]
  · simp only [repeated, if_false, visits] at same ⊢
    rw [heldSetMap charted knows inside, if_pos ⟨rfl, rfl⟩] at same
    exact Prod.ext rfl (setMapStill (Option.some.inj same))

theorem setPathMapSame {p : PathId} {ts : List PathTrace}
    (found : (ts.find? (·.path == p)).map (·.map) = some roots) :
    setPathMap p roots ts = (ts, false) := by
  induction ts with
  | nil => cases found
  | cons t rest ih =>
    by_cases here : t.path = p
    · subst here
      simp only [List.find?_cons, beq_self_eq_true, Option.map_some, Option.some.injEq] at found
      simp only [setPathMap, if_true, ← found, bne_self_eq_false, Bool.and_false]
    · have other : (t.path == p) = false := by simpa using here
      simp only [List.find?_cons, other] at found
      simp [setPathMap, here, ih found]

theorem recordTraceStill {t : TraceId} (same : l.held path (.trace t) = some roots) :
    l.still.recordTrace t path roots = l.still := by
  have kept : ∀ d, d = l.traceAt t → l.traces.modify t.index (fun _ => d) = l.traces := by
    rintro d rfl
    refine modifySame fun x here => ?_
    simp [traceAt, here]
  cases path with
  | none =>
    have map : (l.traceAt t).map = roots := Option.some.inj same
    have whole := kept { l.traceAt t with map := roots } (by rw [← map])
    simp [recordTrace, still, map, whole]
  | some p =>
    have paths := setPathMapSame same
    simp [recordTrace, still, paths, kept]

def reported (start stop : Nat) (t : Trace) : Option RootMap :=
  if Covers start stop t then some t.map else none

def RootMap.meet (m : RootMap) : Option RootMap → RootMap
  | some n => m.inter n
  | none => m

theorem handlerRootsReported (start stop : Nat) : (r.handlerRoots none start stop).1 =
    (r.log.traces.map (reported start stop)).foldl RootMap.meet (RootMap.full r.log.mapSize) := by
  rw [Array.foldl_map]
  simp only [handlerRoots, reported, Covers, ← Bool.decide_and, decide_eq_true_eq]
  congr
  funext m t
  by_cases covers : start ≤ t.ip ∧ t.ip < stop <;> simp [covers, RootMap.meet]

theorem traceAtIs {t : Nat} {d : Trace} (here : l.traces[t]? = some d) : l.traceAt ⟨t⟩ = d := by
  rw [traceAt, Array.getD_eq_getD_getElem?, here]
  rfl

theorem handlerRootsStill {start stop : Nat} (grows : Grows (r.handlerRoots none start stop).2.log l)
    (watched : ∀ t, ((r.handlerRoots none start stop).2.log.traceAt t).watched →
      (l.traceAt t).map = ((r.handlerRoots none start stop).2.log.traceAt t).map) :
    l.still.handlerRoots none start stop = ((r.handlerRoots none start stop).1, l.still) := by
  have size : l.traces.size = r.log.traces.size := by
    rw [grows.traces, (r.handlerRootsGrows start stop).traces]
  have ips : ∀ t, (l.traceAt t).ip = (r.log.traceAt t).ip := fun t => by
    rw [grows.ips, (r.handlerRootsGrows start stop).ips]
  -- a covered trace is watched from here on, so its map stays
  have covered : ∀ t : TraceId, t.index < r.log.traces.size → Covers start stop (r.log.traceAt t) →
      (l.traceAt t).watched ∧ (l.traceAt t).map = (r.log.traceAt t).map := by
    intro t known covers
    have at' := r.traceAtHandler start stop t
    rw [if_pos ⟨covers, known⟩] at at'
    have watching : ((r.handlerRoots none start stop).2.log.traceAt t).watched := by rw [at']
    refine ⟨grows.watched t watching, ?_⟩
    rw [watched t watching, at']
  have reports : l.traces.map (reported start stop) = r.log.traces.map (reported start stop) := by
    apply Array.ext_getElem?
    intro i
    rw [Array.getElem?_map, Array.getElem?_map]
    by_cases known : i < r.log.traces.size
    · have here := Array.getElem?_eq_getElem known
      have there := Array.getElem?_eq_getElem (size ▸ known : i < l.traces.size)
      rw [here, there, ← traceAtIs here, ← traceAtIs there]
      have same : Covers start stop (l.traceAt ⟨i⟩) ↔ Covers start stop (r.log.traceAt ⟨i⟩) := by
        rw [Covers, Covers, ips]
      by_cases covers : Covers start stop (r.log.traceAt ⟨i⟩)
      · simp [reported, same, covers, (covered ⟨i⟩ known covers).2]
      · simp [reported, same, covers]
    · rw [Array.getElem?_eq_none (by omega), Array.getElem?_eq_none (by omega)]
  refine Prod.ext ?_ ?_
  · rw [handlerRootsReported, handlerRootsReported]
    simp only [still, reports, grows.mapSize, (r.handlerRootsGrows start stop).mapSize]
  · have traces : l.traces.map (fun t => if (decide (start ≤ t.ip) && decide (t.ip < stop)) = true
        then { t with watched := true } else t) = l.traces := by
      apply Array.ext_getElem?
      intro i
      rw [Array.getElem?_map]
      cases here : l.traces[i]? with
      | none => rfl
      | some d =>
        have known : i < r.log.traces.size := size ▸ (Array.getElem?_eq_some_iff.mp here).1
        simp only [Option.map_some, Option.some.injEq]
        split
        · rename_i covers
          have watching := (covered ⟨i⟩ known (by
            simpa [Covers, ← ips, traceAtIs here] using covers)).1
          rw [traceAtIs here] at watching
          rw [← watching]
        · rfl
    simp only [handlerRoots, still, traces]

theorem pathForStill {site : CallSiteId} (charted : Charted r.log) (kept : Charted l)
    (grows : Grows (r.pathFor site path).2.log l) :
    l.still.pathFor site path = ((r.pathFor site path).1, l.still) := by
  obtain ⟨d, here, call, outer⟩ := pathForExtends charted site path
  obtain ⟨e, there, call', outer', -⟩ := grows.paths _ d here
  have found : l.path (r.pathFor site path).1 = e := by
    rw [RootLog.path, Array.getD_eq_getD_getElem?, there]
    rfl
  have member := kept.call _ e there
  rw [call', call] at member
  obtain ⟨p, listed, same, known⟩ | ⟨fresh, -⟩ := l.still.pathForCases site path
  · obtain ⟨f, at', call''⟩ := kept.listed site p listed
    rw [RootLog.path, Array.getD_eq_getD_getElem?] at same
    have index : p.index = (r.pathFor site path).1.index := by
      refine kept.single _ _ f e at' there (by rw [call'', call', call]) ?_
      rw [outer', outer, ← same]
      simp [still, at']
    have id : p = (r.pathFor site path).1 := by cases p; simp_all
    rw [known, id]
  · exact absurd ((congrArg CallPath.outer found).trans (outer'.trans outer)) (fresh _ member)

end Still

namespace Passage

def Steady (l : RootLog) : Passage → Option PathId → Cursor → Prop
  | .done, _, _ => True
  | .mark slot rest, path, c => rest.Steady l path { c with roots := c.roots.mark slot }
  | .clear slot rest, path, c => rest.Steady l path { c with roots := c.roots.clear slot }
  | .visit ip last rest, path, c =>
    (l.still.arrive path ip c.roots last).2 = l.still ∧
      rest.Steady l path (c.arrived (l.still.arrive path ip c.roots last).1)
  | .trace t rest, path, c =>
    l.still.recordTrace t path c.roots = l.still ∧ rest.Steady l path c
  | .context body rest, path, c =>
    body.Steady l path c.entered ∧ rest.Steady l path (c.left (body.play path l.still c.entered).2)
  | .handler start stop body rest, path, c =>
    (l.still.handlerRoots none start stop).2 = l.still ∧
      body.Steady l none (.handling (l.still.handlerRoots none start stop).1) ∧ rest.Steady l path c
  | .call site body rest, path, c =>
    (l.still.pathFor site path).2 = l.still ∧
      body.Steady l (some (l.still.pathFor site path).1) (c.called l) ∧
      rest.Steady l path
        (c.returned (body.play (some (l.still.pathFor site path).1) l.still (c.called l)).2)

theorem Steady.play {l : RootLog} (p : Passage) : ∀ {path : Option PathId} {c : Cursor},
    p.Steady l path c → (p.play path l.still c).1 = l.still := by
  induction p with
  | done => exact fun _ => rfl
  | mark _ _ ih | clear _ _ ih => exact fun steady => ih steady
  | visit ip last rest ih =>
    intro path c ⟨here, steady⟩
    rw [playVisit, here, ih steady]
  | trace t rest ih =>
    intro path c ⟨here, steady⟩
    rw [playTrace, here, ih steady]
  | context body rest ihBody ihRest =>
    intro path c ⟨inside, steady⟩
    rw [playContext, ihBody inside, ihRest steady]
  | handler start stop body rest ihBody ihRest =>
    intro path c ⟨here, inside, steady⟩
    rw [playHandler, here, ihBody inside, ihRest steady]
  | call site body rest ihBody ihRest =>
    intro path c ⟨here, inside, steady⟩
    rw [playCall, here, stillLog, ihBody inside, ihRest steady]

/-- From `l'` to `l` the places on a path and below some of its calls keep their maps, and watched
traces keep theirs. -/
structure Undisturbed (places : List Place) (calls : List CallSiteId) (path : Option PathId)
    (l' l : RootLog) : Prop where
  grows : Grows l' l
  charted : Charted l
  watched : ∀ t, (l'.traceAt t).watched → (l.traceAt t).map = (l'.traceAt t).map
  here : ∀ x ∈ places, l.held path x = l'.held path x
  below : ∀ site ∈ calls, ∀ q, Below l' path site q → ∀ x, l.held q x = l'.held q x

variable {base l : RootLog} {path : Option PathId} {places : List Place} {calls : List CallSiteId}

theorem Undisturbed.before {rest : Passage} {r : Replay} {c : Cursor} (ready : Ready base rest path r)
    (fresh : (rest.play path r c).1.stale = false)
    (after : Undisturbed places calls path (rest.play path r c).1.log l)
    (unset : ∀ x ∈ places, x ∉ rest.writes base) (apart : ∀ site ∈ calls, site ∉ rest.calls) :
    Undisturbed places calls path r.log l := by
  have grown := rest.playGrows path r c
  have charted := rest.playCharted (c := c) ready
  refine ⟨grown.trans after.grows, after.charted, fun t watched => ?_, fun x member => ?_,
    fun site member q below x => ?_⟩
  · rw [after.watched t (grown.watched t watched), rest.playWatched ready fresh watched]
  · rw [after.here x member]
    exact rest.playFrame ready fresh ready.knows (fun _ => unset x member)
      (fun site _ below => below.ne charted rfl)
  · rw [after.below site member q (below.grow grown) x]
    refine rest.playFrame ready fresh below.knows
      (fun same => absurd same (below.ne ready.charted)) (fun other called other' => ?_)
    exact apart site member ((below.grow grown).unique charted other' ▸ called)

theorem Undisturbed.fewer {places' : List Place} {calls' : List CallSiteId} {l' : RootLog}
    (after : Undisturbed places calls path l' l) (fewer : ∀ x ∈ places', x ∈ places)
    (less : ∀ site ∈ calls', site ∈ calls) : Undisturbed places' calls' path l' l :=
  { after with
    here := fun x member => after.here x (fewer x member)
    below := fun site member => after.below site (less site member) }

/-! What each step finds in the log that a replay left. -/

section

variable {body rest : Passage} {r : Replay} {c : Cursor}

theorem arriveAgain {ip : Nat} {last : Bool} (ready : Ready base (.visit ip last rest) path r)
    (before : Undisturbed [.instruction ip] [] path (r.arrive path ip c.roots last).2.log l) :
    l.still.arrive path ip c.roots last = ((r.arrive path ip c.roots last).1, l.still) := by
  obtain ⟨inside, -⟩ := ready.orderly
  exact arriveStill ready.charted ready.knows (ready.grows.maps ▸ inside)
    ((r.arriveGrows ..).trans before.grows) (before.here _ List.mem_cons_self)

theorem recordTraceAgain {t : TraceId} (ready : Ready base (.trace t rest) path r)
    (before : Undisturbed [.trace t] [] path (r.recordTrace t path c.roots).log l) :
    l.still.recordTrace t path c.roots = l.still := by
  obtain ⟨known, -⟩ := ready.orderly
  refine recordTraceStill ((before.here _ List.mem_cons_self).trans ?_)
  rw [heldRecord (ready.grows.traces ▸ known), if_pos ⟨rfl, rfl⟩]

theorem handlerRootsAgain {start stop : Nat}
    (ready : Ready base (.handler start stop body rest) none r)
    (quiet : (body.play none (r.handlerRoots none start stop).2 c).1.stale = false)
    (before : Undisturbed places calls path
      (body.play none (r.handlerRoots none start stop).2 c).1.log l) :
    l.still.handlerRoots none start stop = ((r.handlerRoots none start stop).1, l.still) := by
  refine handlerRootsStill ((body.playGrows ..).trans before.grows) fun t watched => ?_
  rw [before.watched t ((body.playGrows ..).watched t watched)]
  exact body.playWatched ready.handler quiet watched

theorem pathForAgain {site : CallSiteId} {q : Option PathId}
    (ready : Ready base (.call site body rest) path r)
    (before : Undisturbed places calls path (body.play q (r.pathFor site path).2 c).1.log l) :
    l.still.pathFor site path = ((r.pathFor site path).1, l.still) :=
  pathForStill ready.charted before.charted ((body.playGrows ..).trans before.grows)

theorem Undisturbed.inside {site : CallSiteId} {places' : List Place} {calls' : List CallSiteId}
    (charted : Charted r.log)
    (before : Undisturbed places [site] path
      (body.play (some (r.pathFor site path).1) (r.pathFor site path).2 c).1.log l) :
    Undisturbed places' calls' (some (r.pathFor site path).1)
      (body.play (some (r.pathFor site path).1) (r.pathFor site path).2 c).1.log l := by
  have below := (pathForBelow charted site path).grow
    (body.playGrows (some (r.pathFor site path).1) (r.pathFor site path).2 c)
  exact { before with
    here := fun x _ => before.below site List.mem_cons_self _ below x
    below := fun other _ q inner =>
      before.below site List.mem_cons_self q (below.trans inner) }

end

/- The main step: a replay after which nothing was stale and nothing is disturbed takes the same
steps again on the log it left, and each of them leaves that log as it is. -/
theorem steadyAfter (p : Passage) : ∀ {path : Option PathId} {r : Replay} {c : Cursor},
    Ready base p path r → (p.play path r c).1.stale = false →
    Undisturbed p.notes p.calls path (p.play path r c).1.log l →
      p.Steady l path c ∧ (p.play path l.still c).2 = (p.play path r c).2 := by
  induction p with
  | done => exact fun _ _ _ => ⟨trivial, rfl⟩
  | mark _ _ ih | clear _ _ ih => exact fun ready => ih { ready with }
  | visit ip last rest ih =>
    intro path r c ready fresh after
    rw [playVisit] at fresh after
    obtain ⟨-, unset, -⟩ := ready.orderly
    have before : Undisturbed [.instruction ip] [] path (r.arrive path ip c.roots last).2.log l :=
      (after.fewer (by simp [notes]) (by simp)).before ready.visit fresh (by simpa using unset)
        (by simp)
    obtain ⟨steady, same⟩ := ih ready.visit fresh
      (after.fewer (fun x member => List.mem_cons_of_mem _ member) (fun _ member => member))
    rw [Steady, playVisit, playVisit, arriveAgain ready before]
    exact ⟨⟨rfl, steady⟩, same⟩
  | trace t rest ih =>
    intro path r c ready fresh after
    rw [playTrace] at fresh after
    obtain ⟨-, unset, -⟩ := ready.orderly
    have before : Undisturbed [.trace t] [] path (r.recordTrace t path c.roots).log l :=
      (after.fewer (by simp [notes]) (by simp)).before ready.trace fresh (by simpa using unset)
        (by simp)
    obtain ⟨steady, same⟩ := ih ready.trace fresh
      (after.fewer (fun x member => List.mem_cons_of_mem _ member) (fun _ member => member))
    rw [Steady, playTrace, playTrace, recordTraceAgain ready before]
    exact ⟨⟨rfl, steady⟩, same⟩
  | context body rest ihBody ihRest =>
    intro path r c ready fresh after
    rw [playContext] at fresh after
    have later := ready.afterContext (body.playCharted (c := c.entered) ready.context)
    obtain ⟨unset, apart, -⟩ := ready.orderly
    have before := (after.fewer (fun x => List.mem_append_left _)
      (fun site => List.mem_append_left _)).before later fresh unset apart
    obtain ⟨inside, same⟩ := ihBody ready.context (rest.playFresh _ _ _ fresh) before
    obtain ⟨steady, same'⟩ := ihRest later fresh
      (after.fewer (fun x => List.mem_append_right _) (fun site => List.mem_append_right _))
    rw [Steady, playContext, playContext, inside.play, same]
    exact ⟨⟨inside, steady⟩, same'⟩
  | handler start stop body rest ihBody ihRest =>
    intro path r c ready fresh after
    obtain rfl : path = none := ready.outside.resolve_right id
    rw [playHandler] at fresh after
    have later := ready.afterHandler (c := .handling (r.handlerRoots none start stop).1)
      (body.playCharted ready.handler)
    obtain ⟨unset, apart, -⟩ := ready.orderly
    have before := (after.fewer (fun x => List.mem_append_left _)
      (fun site => List.mem_append_left _)).before later fresh unset apart
    have quiet := rest.playFresh _ _ _ fresh
    obtain ⟨inside, same⟩ := ihBody ready.handler quiet before
    obtain ⟨steady, same'⟩ := ihRest later fresh
      (after.fewer (fun x => List.mem_append_right _) (fun site => List.mem_append_right _))
    rw [Steady, playHandler, playHandler, handlerRootsAgain ready quiet before, inside.play]
    exact ⟨⟨rfl, inside, steady⟩, same'⟩
  | call site body rest ihBody ihRest =>
    intro path r c ready fresh after
    rw [playCall] at fresh after
    have later := ready.afterCall (c := c.called (r.pathFor site path).2.log)
      (body.playCharted ready.call)
    obtain ⟨-, apart, -⟩ := ready.orderly
    have before : Undisturbed [] [site] path _ l :=
      (after.fewer (by simp) (by simp [calls])).before later fresh (by simp) (by simpa using apart)
    obtain ⟨inside, same⟩ :=
      ihBody ready.call (rest.playFresh _ _ _ fresh) (before.inside ready.charted)
    obtain ⟨steady, same'⟩ := ihRest later fresh
      (after.fewer (fun x member => member) (fun _ => List.mem_cons_of_mem _))
    have entered : c.called (r.pathFor site path).2.log = c.called l := by
      rw [Cursor.called, Cursor.called, ((body.playGrows ..).trans before.grows).mapSize]
    have found := pathForAgain ready before
    rw [entered] at inside same steady same'
    rw [Steady, playCall, playCall, found, entered]
    simp only [stillLog]
    rw [same, inside.play]
    exact ⟨⟨trivial, inside, steady⟩, same'⟩

end Passage

theorem RootLog.Reads.grow {l l' : RootLog} (grows : Grows l l') {depth i j : Nat} {p : Passage}
    (reads : Reads l depth i p j) : Reads l' depth i p j := by
  induction reads with
  | done => exact .done
  | mark here _ ih => exact .mark (grows.entries ▸ here) ih
  | clear here _ ih => exact .clear (grows.entries ▸ here) ih
  | @visit _ i _ ip _ here known _ ih =>
    have ends : l.endsAfter i = l'.endsAfter i := by rw [endsAfter, endsAfter, grows.entries]
    rw [ends]
    exact .visit (grows.entries ▸ here) (grows.maps ▸ known) ih
  | trace here known _ ih => exact .trace (grows.entries ▸ here) (grows.traces ▸ known) ih
  | context here _ close _ ihInside ihAfter =>
    exact .context (grows.entries ▸ here) ihInside (grows.entries ▸ close) ihAfter
  | handler here _ close _ ihInside ihAfter =>
    exact .handler (grows.entries ▸ here) ihInside (grows.entries ▸ close) ihAfter
  | call here onward known start same recorded _ close _ ihInside ihAfter =>
    refine .call (grows.entries ▸ here) onward (grows.calls ▸ known) (grows.entries ▸ start) ?_ ?_
      ihInside (grows.entries ▸ close) ihAfter
    · rw [grows.callees, grows.callees, same]
    · rw [grows.callees, RootLog.region, grows.regions]
      exact recorded

theorem Passage.writesGrow {l l' : RootLog} (grows : Grows l l') (p : Passage) :
    p.writes l' = p.writes l := by
  induction p with
  | done => rfl
  | mark _ _ ih | clear _ _ ih | call _ _ _ _ ih => exact ih
  | visit ip last rest ih =>
    have count : l'.visitCount ip = l.visitCount ip := by rw [visitCount, grows.visits, visitCount]
    simp only [writes, ih, count]
  | trace t rest ih => simp only [writes, ih]
  | context body rest ihBody ihRest | handler _ _ body rest ihBody ihRest =>
    simp only [writes, ihBody, ihRest]

theorem Passage.orderlyGrow {l l' : RootLog} (grows : Grows l l') (p : Passage) :
    p.Orderly l' ↔ p.Orderly l := by
  induction p with
  | done => rfl
  | mark _ _ ih | clear _ _ ih => exact ih
  | visit ip last rest ih => simp only [Orderly, ih, writesGrow grows, grows.maps]
  | trace t rest ih => simp only [Orderly, ih, writesGrow grows, grows.traces]
  | context body rest ihBody ihRest | handler _ _ body rest ihBody ihRest =>
    simp only [Orderly, ihBody, ihRest, writesGrow grows]
  | call site body rest ihBody ihRest => simp only [Orderly, ihBody, ihRest, grows.calls]

structure RootLog.Legible (l : RootLog) (p : Passage) : Prop where
  reads : ∃ depth ≤ l.regions.size, Reads l depth 0 p l.entries.size
  orderly : p.Orderly l
  charted : Charted l
  outside : l.HandlersOutside

namespace RootLog.Legible

variable {l l' : RootLog} {p : Passage}

theorem grow (legible : l.Legible p) (grows : Grows l l') (charted : Charted l') : l'.Legible p where
  reads := by
    obtain ⟨depth, shallow, reads⟩ := legible.reads
    exact ⟨depth, grows.regions ▸ shallow, grows.entries ▸ reads.grow grows⟩
  orderly := (p.orderlyGrow grows).mpr legible.orderly
  charted := charted
  outside i start stop here := by
    rw [grows.regionAt]
    exact legible.outside i start stop (grows.entries ▸ here)

theorem ready (legible : l.Legible p) : Passage.Ready l p none l.still :=
  ⟨Grows.refl l, legible.orderly, legible.charted, trivial, .inl rfl⟩

theorem pass (legible : l.Legible p) : l.pass = (p.play none l.still l.beginning).1 := by
  obtain ⟨depth, shallow, reads⟩ := legible.reads
  exact reads.pass legible.outside shallow

theorem passGrows (legible : l.Legible p) : Grows l l.pass.log := by
  rw [legible.pass]
  exact p.playGrows none l.still l.beginning

theorem afterPass (legible : l.Legible p) : l.pass.log.Legible p := by
  refine legible.grow legible.passGrows ?_
  rw [legible.pass]
  exact p.playCharted legible.ready

theorem steady (legible : l.Legible p) (fresh : l.pass.stale = false) :
    p.Steady l.pass.log none l.pass.log.beginning := by
  have charted := legible.afterPass.charted
  have same : l.pass.log.beginning = l.beginning := by
    rw [beginning, beginning, legible.passGrows.mapSize]
  rw [same]
  rw [legible.pass] at fresh charted ⊢
  exact (p.steadyAfter legible.ready fresh ⟨Grows.refl _, charted, fun _ _ => rfl, fun _ _ => rfl,
    fun _ _ _ _ _ => rfl⟩).1

theorem solved {s : Settings} {fuel passes n : Nat} (legible : l.Legible p)
    (ok : solveFrom s fuel passes l = (.ok n, l')) :
    l'.Legible p ∧ Grows l l' ∧ p.Steady l' none l'.beginning := by
  induction fuel generalizing l passes with
  | zero => cases ok
  | succ fuel ih =>
    unfold solveFrom at ok
    simp only at ok
    split at ok
    · rename_i fresh
      cases ok
      exact ⟨legible.afterPass, legible.passGrows, legible.steady (by simpa using fresh)⟩
    · split at ok
      · cases ok
      · obtain ⟨legible', grows, steady⟩ := ih legible.afterPass ok
        exact ⟨legible', legible.passGrows.trans grows, steady⟩

theorem solveAgain {s : Settings} (legible : l.Legible p) (steady : p.Steady l none l.beginning) :
    l.solve s = (.ok 1, l) := by
  have same : l.pass = l.still := by rw [legible.pass, steady.play]
  have enough : 1 ≤ l.passFuel := Nat.le_trans (by decide : 1 ≤ 2) (Nat.le_add_right ..)
  obtain ⟨n, fuel⟩ := Nat.exists_eq_add_of_le' enough
  rw [solve, fuel, solveFrom, same]
  rfl

end RootLog.Legible

end Lowering
