import Lowering.Proofs.Forking
/-!
Opening paths.

A saved state has a fork for every value that it captures. Going back to it opens a path on each of the forks, and
what the values receive next is received on it. So after any calls of a client the slots of the forks hold the first
reads of the paths that the calls have opened.
-/
namespace Lowering

open Build State

def ReadTable.extend (slots : List (Option ReadId) × Nat) : List (Option ReadId) × Nat := (slots.1 ++ [none], slots.2)

namespace State

variable {s s' t : State} {v w : ValueId} {r : ReadId} {f g : ForkId} {d : Fork} {forks : List (ValueId × ReadId)}
  {opened : List OpenedPath}

theorem isCaptured {p : ValueId × ReadId} (member : p ∈ (s.forkAt f).forks) : p.1 ∈ s.captured f := List.mem_map_of_mem member

/-! Going back to a state. -/

def openFork (s : State) (p : ValueId × ReadId) : State :=
  { s with reads := s.reads.openPath p.2 }.modifyValue p.1 fun d => { d with lastRead := some p.2 }

structure Opens (forks : List (ValueId × ReadId)) (s s' : State) : Prop where
  endows : s.Endows s'
  values : s'.values.size = s.values.size
  size : s'.reads.size = s.reads.size
  grows : s.reads.Grows s'.reads
  paths : ∀ x, s'.reads.paths? x =
    if x ∈ forks.map (·.2) then (s.reads.paths? x).map ReadTable.extend else s.reads.paths? x
  lasts : ∀ p ∈ forks, (s'.value p.1).lastRead = some p.2
  others : ∀ w, w ∉ forks.map (·.1) → (s'.value w).lastRead = (s.value w).lastRead

theorem opensForks (distinct : (forks.map (·.1)).Nodup) (of : ∀ p ∈ forks, s.reads.ReadOf p.1 p.2)
    (known : ∀ p ∈ forks, s.IsValue p.1) : s.Opens forks (forks.foldl openFork s) := by
  induction forks generalizing s with
  | nil => exact ⟨rfl, rfl, rfl, .refl _, fun _ => rfl, nofun, fun _ _ => rfl⟩
  | cons p rest ih =>
    obtain ⟨fresh, distinct⟩ := List.nodup_cons.mp distinct
    have grows : s.reads.Grows (s.openFork p).reads := s.reads.growsOpenPath p.2
    have size : (s.openFork p).reads.size = s.reads.size := by
      simp only [openFork, modifyValue, ReadTable.openPath]
      split
      · exact ReadTable.sizeSetKind ..
      · rfl
    have own : p.2 ∉ rest.map (·.2) := by
      intro again
      obtain ⟨q, member, same⟩ := List.mem_map.mp again
      have value := (of q (List.mem_cons_of_mem _ member)).value
      rw [same, (of p List.mem_cons_self).value] at value
      exact fresh (List.mem_map.mpr ⟨q, member, value.symm⟩)
    have later := ih distinct (fun q member => (of q (List.mem_cons_of_mem _ member)).grow grows) fun q member => by
      rw [IsValue, openFork, sizeModifyValue]
      exact known q (List.mem_cons_of_mem _ member)
    have first : ((s.openFork p).value p.1).lastRead = some p.2 := by
      rw [openFork, valueModify, if_pos ⟨rfl, known p List.mem_cons_self⟩]
    have others : ∀ w, w ≠ p.1 → ((s.openFork p).value w).lastRead = (s.value w).lastRead := fun w other => by
      rw [openFork, valueModify, if_neg fun here => other here.1]
      rfl
    refine ⟨?_, ?_, later.size.trans size, grows.trans later.grows, fun x => ?_, List.forall_mem_cons.mpr ⟨?_, later.lasts⟩,
      fun w other => ?_⟩
    · exact Trans.trans (show s.Endows (s.openFork p) from rfl) later.endows
    · exact later.values.trans (sizeModifyValue ..)
    · have here : (s.openFork p).reads.paths? x = if x = p.2 then (s.reads.paths? x).map ReadTable.extend
          else s.reads.paths? x := ReadTable.pathsOpen ..
      rw [List.foldl_cons, later.paths, here, List.map_cons]
      by_cases same : x = p.2
      · subst same
        simp [own]
      · have entry : x ∈ p.2 :: rest.map (·.2) ↔ x ∈ rest.map (·.2) := by simp [same]
        simp only [entry, if_neg same]
    · exact (later.others p.1 fresh).trans first
    · obtain ⟨apart, other⟩ := not_or.mp (mt List.mem_cons.mpr other)
      exact (later.others w other).trans (others w apart)

def openings (s : State) (f : ForkId) : List OpenedPath :=
  if (s.forkAt f).predecessor.isSome then [⟨f, s.reads.size, ⟨s.links.size⟩⟩] else []

def reopenings (s : State) (f : ForkId) : List OpenedPath :=
  match ensureEvent s with
  | .ok _ t => t.openings f
  | .error _ _ => []

namespace Tracks

variable (tracks : s.Tracks opened)

include tracks

theorem opens (drafted : s.Drafted) (inside : f.index < s.forks.size) (l : LinkId) (opens : s.Opens (s.forkAt f).forks s') :
    s'.Tracks (opened ++ [⟨f, s.reads.size, l⟩]) := by
  have forks : s'.forks = s.forks := by rw [opens.endows]
  have fork : s'.forkAt = s.forkAt := by funext f; simp only [forkAt, forks]
  have captured : s'.captured = s.captured := by funext f; simp only [State.captured, fork]
  have added : ∀ v, s'.openedFor v (opened ++ [⟨f, s.reads.size, l⟩]) =
      s.openedFor v opened ++ if v ∈ s.captured f then [⟨f, s.reads.size, l⟩] else [] := by
    intro v
    simp only [openedFor, captured, List.filter_append, List.filter_singleton]
    rw [Bool.cond_decide]
  have older : ∀ v, ∀ o ∈ s.openedFor v opened, o.reads ≤ s.reads.size := fun v o member =>
    (tracks.known o (List.mem_of_mem_filter member)).2
  have firsts : ∀ g v, s'.reads.firsts g v s'.reads.size (s.openedFor v opened) =
      s.reads.firsts g v s.reads.size (s.openedFor v opened) := fun g v => by
    rw [opens.size]
    exact ReadTable.firstsGrow opens.grows g v le_rfl (older v)
  have received : ∀ v n, s'.reads.received? v n s'.reads.size = s.reads.received? v n s.reads.size := fun v n => by
    rw [opens.size]
    exact ReadTable.receivedGrow opens.grows v le_rfl
  refine ⟨fun o member => ?_, fun g v member => ?_, ?_, ?_, fun g p member => ?_, fun v o last r member => ?_,
    fun r slots taken here => ?_⟩
  · rw [forks, opens.size]
    rcases List.mem_append.mp member with old | new
    · exact tracks.known o old
    · cases List.mem_singleton.mp new
      exact ⟨inside, le_rfl⟩
  · rw [captured] at member
    exact (tracks.exist g v member).trans_eq opens.values.symm
  · simpa only [captured] using tracks.distinct
  · simpa only [fork] using tracks.apart
  · rw [fork] at member
    rw [added, opens.paths, tracks.slots g p member]
    have other : g ≠ f → p.2 ∉ (s.forkAt f).forks.map (·.2) := by
      intro apart again
      obtain ⟨q, member', same⟩ := List.mem_map.mp again
      exact apart (tracks.apart g f p member q member' same.symm)
    split
    · rename_i here
      have same : g = f := by
        by_contra apart
        exact other apart here
      subst same
      have none := s.reads.receivedNone p.1 s.reads.size
      rw [if_pos (isCaptured member), ReadTable.firstsConcat, if_pos rfl, received, none]
      have before : s'.reads.firsts g p.1 s.reads.size (s.openedFor p.1 opened) =
          s.reads.firsts g p.1 s.reads.size (s.openedFor p.1 opened) := opens.size ▸ firsts g p.1
      rw [before]
      rfl
    · rename_i elsewhere
      have apart : g ≠ f := fun same => elsewhere (same ▸ List.mem_map_of_mem member)
      split
      · have before : s'.reads.firsts g p.1 s.reads.size (s.openedFor p.1 opened) =
            s.reads.firsts g p.1 s.reads.size (s.openedFor p.1 opened) := opens.size ▸ firsts g p.1
        rw [ReadTable.firstsConcat, if_neg (Ne.symm apart), List.append_nil, before]
      · rw [List.append_nil, firsts]
  · rw [fork] at member
    rw [added] at last
    rw [received]
    split at last
    · rename_i here
      rw [List.getLast?_append] at last
      cases last
      exact .inl ⟨opens.lasts (v, r) member, ReadTable.receivedNone ..⟩
    · rename_i elsewhere
      rw [List.append_nil] at last
      rw [opens.others v elsewhere]
      exact tracks.current v o last r member
  · rw [opens.paths] at here
    rw [fork]
    split at here
    · rename_i changed
      obtain ⟨p, member, rfl⟩ := List.mem_map.mp changed
      refine .inr ⟨f, p.1, member, fun o last => ?_⟩
      rw [added, if_pos (isCaptured member), List.getLast?_append] at last
      cases last
      exact (drafted.readOf member).known
    · refine (tracks.bare r slots taken here).imp_right ?_
      rintro ⟨g, v, member, old⟩
      refine ⟨g, v, member, fun o last => ?_⟩
      rw [added] at last
      split at last
      · rw [List.getLast?_append] at last
        cases last
        exact (drafted.readOf member).known
      · rw [List.append_nil] at last
        exact old o last

end Tracks

/-! Saving a state. -/

theorem forkAtPush (forks : s'.forks = s.forks.push d) (f : ForkId) :
    s'.forkAt f = if f.index = s.forks.size then d else s.forkAt f := by
  simp only [forkAt, forks, Array.getD_eq_getD_getElem?, Array.getElem?_push]
  split <;> rfl

theorem Tracks.captures (tracks : s.Tracks opened) (forks : s'.forks = s.forks.push d) (reads : s'.reads = s.reads)
    (values : s'.values = s.values) (exist : ∀ p ∈ d.forks, s.IsValue p.1) (distinct : (d.forks.map (·.1)).Nodup)
    (bare : ∀ p ∈ d.forks, s.reads.paths? p.2 = some ([], 0))
    (fresh : ∀ p ∈ d.forks, ∀ g, ∀ q ∈ (s.forkAt g).forks, p.2 ≠ q.2) : s'.Tracks opened := by
  have fork := forkAtPush forks
  have value : s'.value = s.value := by funext v; simp only [State.value, values]
  have isValue : ∀ v, s'.IsValue v ↔ s.IsValue v := fun v => by rw [IsValue, values, IsValue]
  have before : ∀ o ∈ opened, s'.forkAt o.fork = s.forkAt o.fork := fun o member => by
    rw [fork, if_neg (Nat.ne_of_lt (tracks.known o member).1)]
  have openedFor : ∀ v, s'.openedFor v opened = s.openedFor v opened := fun v =>
    List.filter_congr fun o member => by rw [captured, before o member, captured]
  refine ⟨fun o member => ?_, fun f v member => ?_, fun f => ?_, fun f g p member q member' same => ?_, fun f p member => ?_,
    fun v o last r member => ?_, fun r slots taken here => ?_⟩
  · rw [forks, reads, Array.size_push]
    exact ⟨(tracks.known o member).1.trans (Nat.lt_succ_self _), (tracks.known o member).2⟩
  · rw [captured, fork] at member
    rw [isValue]
    split at member
    · obtain ⟨p, inside, rfl⟩ := List.mem_map.mp member
      exact exist p inside
    · exact tracks.exist f v member
  · rw [captured, fork]
    split
    · exact distinct
    · exact tracks.distinct f
  · rw [fork] at member member'
    obtain ⟨f⟩ := f
    obtain ⟨g⟩ := g
    split at member <;> split at member'
    · rename_i new new'
      exact congrArg ForkId.mk (new.trans new'.symm)
    · exact absurd same (fresh p member _ q member')
    · exact absurd same.symm (fresh q member' _ p member)
    · exact tracks.apart _ _ p member q member' same
  · rw [fork] at member
    rw [reads, openedFor]
    split at member
    · rename_i new
      have none : s.reads.firsts f p.1 s.reads.size (s.openedFor p.1 opened) = [] := by
        refine ReadTable.firstsNone fun o member same => ?_
        have old := (tracks.known o (List.mem_of_mem_filter member)).1
        rw [same, new] at old
        exact Nat.lt_irrefl _ old
      rw [bare p member, none]
    · exact tracks.slots f p member
  · rw [openedFor] at last
    rw [before o (openedForLast last).1] at member
    rw [value, reads]
    exact tracks.current v o last r member
  · rw [reads] at here
    refine (tracks.bare r slots taken here).imp_right ?_
    rintro ⟨f, v, member, old⟩
    refine ⟨f, v, ?_, by rwa [openedFor]⟩
    rw [fork, if_neg]
    · exact member
    · intro new
      rw [forkAt, Array.getD_eq_getD_getElem?, new, Array.getElem?_eq_none le_rfl] at member
      cases member

def Paves (paths : List OpenedPath) (s s' : State) : Prop := ∀ opened, s.Tracks opened → s'.Tracks (opened ++ paths)

theorem Paves.trans {paths paths' : List OpenedPath} (first : s.Paves paths t) (second : t.Paves paths' s') :
    s.Paves (paths ++ paths') s' := fun opened tracks => by
  rw [← List.append_assoc]
  exact second _ (first opened tracks)

theorem Supplies.paves (supplies : s.Supplies s') : s.Paves [] s' := fun opened tracks => by
  rw [List.append_nil]
  exact supplies.tracks opened tracks

end State

namespace Method

variable {s t : State} {f : ForkId} {forks : List (ValueId × ReadId)} {saved : List ValueId}

def returnTo (f : ForkId) (s : State) : State :=
  let d := s.forkAt f
  let s := { s with stack := d.stack, locals := d.locals, predecessor := d.predecessor, ip := d.ip }
  if d.predecessor.isNone then s else d.forks.foldl openFork { s with fork := some f }

theorem restoreReturns (f : ForkId) : restoreState f = ensureEvent >>= fun _ => modify (returnTo f) := rfl

theorem pavesReturn (drafted : s.Drafted) (inside : f.index < s.forks.size) : s.Paves (s.openings f) (returnTo f s) := by
  intro opened tracks
  unfold returnTo openings
  dsimp only
  cases (s.forkAt f).predecessor with
  | none =>
    change Tracks (opened ++ []) _
    rw [List.append_nil]
    exact tracks.silent (.still rfl rfl rfl)
  | some p =>
    let u : State := { s with
      stack := (s.forkAt f).stack, locals := (s.forkAt f).locals, predecessor := some p, ip := (s.forkAt f).ip, fork := some f }
    have still : s.Silent u := .still rfl rfl rfl
    have drafted' : u.Drafted := (draftsRest drafted (show s.Rest u from rfl)).drafted
    refine (tracks.silent still).opens drafted' inside _ ?_
    refine opensForks (tracks.distinct f) (fun p member => drafted'.readOf member) fun p member => ?_
    exact tracks.exist f p.1 (isCaptured member)

theorem givenForks (values : List ValueId) (gave : values.mapM giveFork s = .ok forks t) : forks.map (·.1) = values := by
  induction values generalizing s forks with
  | nil =>
    rw [List.mapM_nil] at gave
    obtain ⟨rfl, -⟩ := pureOk.mp gave
    rfl
  | cons v rest ih =>
    rw [List.mapM_cons] at gave
    obtain ⟨p, u, given, gave⟩ := bindOk.mp gave
    obtain ⟨ps, u', rest', same⟩ := bindOk.mp gave
    obtain ⟨rfl, rfl⟩ := pureOk.mp same
    rw [giveFork, modifyGetBind] at given
    obtain ⟨⟨⟩, u'', -, same⟩ := bindOk.mp given
    obtain ⟨rfl, rfl⟩ := pureOk.mp same
    rw [List.map_cons, ih rest']

theorem gatheredForks (drafted : s.Drafted) (gathered : gatherForks s = .ok (saved, forks) t) :
    ∃ (values : List ValueId) (u : State), s.Supplies u ∧ values.mapM giveFork u = .ok forks t := by
  obtain ⟨⟨⟩, u, ensured, gathered⟩ := bindOk.mp gathered
  have first := (suppliesTells.links linksEnsureEvent).holds ensured drafted
  rw [getBind, modifyBind, getBind] at gathered
  obtain ⟨ps, t', gave, same⟩ := bindOk.mp gathered
  obtain ⟨⟨rfl, rfl⟩, rfl⟩ := (pureOk.mp same).imp_left Prod.mk.inj
  exact ⟨_, _, first.trans (suppliesTells.rest (show u.Rest { u with saved := [] } from rfl) first.drafts.drafted), gave⟩

theorem pavesCapture (drafted : s.Drafted) (exist : ∀ v ∈ (after captureState s).captured ⟨s.forks.size⟩, s.IsValue v) :
    s.Paves [] (after captureState s) := by
  rw [captureGathers] at exist ⊢
  cases gathered : gatherForks s with
  | error e t =>
    rw [afterBindError gathered]
    exact (suppliesGather.fails gathered drafted).paves
  | ok p t =>
    obtain ⟨saved, forks⟩ := p
    rw [afterBindOk gathered] at exist ⊢
    have supplies := suppliesGather.holds gathered drafted
    obtain ⟨values, u, before, gave⟩ := gatheredForks drafted gathered
    have kept : (after (keepFork saved forks) t).forks =
        t.forks.push ⟨t.stack, t.locals, saved, t.predecessor, t.ip, forks⟩ := rfl
    have known : ∀ v ∈ values, u.IsValue v := fun v member => by
      rw [captured, forkAtPush kept, if_pos (congrArg Array.size supplies.forks).symm, givenForks values gave] at exist
      exact (exist v member).trans_le before.values
    obtain ⟨same, distinct, -, fresh, -⟩ := gaveForks values before.drafts.drafted known gave
    have gives : (values.mapM giveFork).Supplies := .mapM fun v =>
      suppliesTells.given v (k := .fork [] [] 0) ⟨rfl, rfl⟩ fun r => (v, r)
    have given := gives.holds gave before.drafts.drafted
    intro opened tracks
    rw [List.append_nil]
    refine (supplies.tracks opened tracks).captures kept rfl rfl (fun p member => ?_) (by rwa [same])
      (fun p member => (fresh p member).2) fun p member g q member' again => ?_
    · refine (known p.1 ?_).trans_le given.values
      rw [← same]
      exact List.mem_map_of_mem member
    · rw [forkAt, given.forks, ← forkAt] at member'
      have old : q.2.index < u.reads.size := (before.drafts.drafted.readOf member').known
      rw [← again] at old
      exact absurd (fresh p member).1 (Nat.not_le.mpr old)

theorem pavesRestore (drafted : s.Drafted) (inside : f.index < s.forks.size) :
    s.Paves (s.reopenings f) (after (restoreState f) s) := by
  unfold reopenings
  have ensures : ensureEvent.Supplies := suppliesTells.links linksEnsureEvent
  rw [restoreReturns]
  cases ensured : ensureEvent s with
  | error e t =>
    rw [afterBindError ensured]
    exact (ensures.fails ensured drafted).paves
  | ok a t =>
    rw [afterBindOk ensured]
    have supplies := ensures.holds ensured drafted
    intro opened tracks
    exact pavesReturn supplies.drafts.drafted (by rwa [supplies.forks]) opened (supplies.tracks opened tracks)

theorem capturedInside (ran : captureState s = .ok f t) : f.index < t.forks.size := by
  rw [captureGathers] at ran
  obtain ⟨p, u, -, kept⟩ := bindOk.mp ran
  obtain ⟨rfl, rfl⟩ := Prod.mk.inj (modifyGetOk.mp kept)
  simp

theorem restoreKeepsForks (f : ForkId) (s : State) : (after (restoreState f) s).forks = s.forks := by
  have returned : ∀ s : State, (returnTo f s).forks = s.forks := by
    intro s
    unfold returnTo
    dsimp only
    split
    · rfl
    · exact foldlSame (g := State.forks) fun _ _ => rfl
  rw [restoreReturns]
  cases ensured : ensureEvent s with
  | error e t =>
    rw [afterBindError ensured, linksEnsureEvent.fails ensured]
  | ok a t =>
    rw [afterBindOk ensured]
    exact (returned t).trans (by rw [linksEnsureEvent.holds ensured])

theorem afterLinkSubroutine (r : SubroutineId) (s : State) :
    after (linkSubroutine r) s = match s.subroutines.getD r.index none with
      | some f => after (restoreState f) s
      | none => s := by
  rw [after, linkSubroutine, getBind]
  cases s.subroutines.getD r.index none <;> rfl

end Method

theorem afterDiscarded {α : Type} {s : State} {x : Build α} : after (discard x) s = after x s := by
  have mapped : discard x = (fun _ => PUnit.unit) <$> x := rfl
  rw [mapped]
  simp only [after, Functor.map, EStateM.map]
  cases x s <;> rfl

namespace ClientCall

variable {s : State}

def restores? (s : State) : ClientCall → Option ForkId
  | restoreState f => some f
  | linkSubroutine r => s.subroutines.getD r.index none
  | _ => none

def opens (s : State) : ClientCall → List OpenedPath
  | saveState =>
    match Method.captureState s with
    | .ok f t => t.reopenings f
    | .error _ _ => []
  | c =>
    match c.restores? s with
    | some f => s.reopenings f
    | none => []

/-- The values that the call captures are there, and the state that it goes back to was saved. -/
def Grounded (s : State) (c : ClientCall) : Prop :=
  (∀ v ∈ (after c.run s).captured ⟨s.forks.size⟩, s.IsValue v) ∧ ∀ f ∈ c.restores? s, f.index < s.forks.size

instance (s : State) (c : ClientCall) : Decidable (c.Grounded s) := inferInstanceAs (Decidable (_ ∧ _))

theorem pavesSave (exist : ∀ v ∈ (after Method.saveState s).captured ⟨s.forks.size⟩, s.IsValue v) (drafted : s.Drafted) :
    s.Paves (saveState.opens s) (after Method.saveState s) := by
  have saves : Method.saveState = Method.captureState >>= fun f => Method.restoreState f >>= fun _ => pure f := rfl
  unfold opens
  rw [saves] at exist ⊢
  cases ran : Method.captureState s with
  | error e t =>
    rw [afterBindError ran] at exist ⊢
    have captured := Method.pavesCapture drafted
    rw [after, ran] at captured
    exact captured exist
  | ok f t =>
    rw [afterBindOk ran, afterBindPure] at exist ⊢
    have captured := Method.pavesCapture drafted
    have drafts := Method.draftsCaptureState.holds ran drafted
    rw [afterOk ran] at captured
    have first := captured fun v member => exist v (by
      rwa [State.captured, forkAt, Method.restoreKeepsForks])
    exact first.trans (Method.pavesRestore drafts.drafted (Method.capturedInside ran))

theorem pavesReturning {r : SubroutineId} {address : ValueId}
    (exist : ∀ v ∈ (after (Method.returnFromSubroutine r address) s).captured ⟨s.forks.size⟩, s.IsValue v)
    (drafted : s.Drafted) : s.Paves [] (after (Method.returnFromSubroutine r address) s) := by
  have ends : Method.returnFromSubroutine r address = (do
      Append.saveLocals
      Append.jump { op := .jump, address, exit := false, cleanLocals := true }) >>= fun _ => (do
        let f ← Method.captureState
        modify fun s => { s with subroutines := s.subroutines.modify r.index fun _ => some f }) := by
    rw [bind_assoc]
    rfl
  have leaves : (do
      Append.saveLocals
      Append.jump { op := .jump, address, exit := false, cleanLocals := true } : Build Unit).Supplies :=
    .bind suppliesTells.suits.saveLocals fun _ => suppliesTells.suits.jump _
  rw [ends] at exist ⊢
  generalize (do
    Append.saveLocals
    Append.jump { op := .jump, address, exit := false, cleanLocals := true } : Build Unit) = act at leaves exist ⊢
  cases left : act s with
  | error e t =>
    rw [afterBindError left]
    exact (leaves.fails left drafted).paves
  | ok a t =>
    have supplies := leaves.holds left drafted
    rw [afterBindOk left] at exist ⊢
    have captured := Method.pavesCapture supplies.drafts.drafted
    have drafts := Method.draftsCaptureState.keeps t supplies.drafts.drafted
    rw [supplies.forks] at captured
    change s.Paves ([] ++ []) _
    refine supplies.paves.trans ?_
    cases ran : Method.captureState t with
    | error e u =>
      rw [afterBindError ran] at exist ⊢
      rw [after, ran] at captured
      exact captured fun v member => (exist v member).trans_le supplies.values
    | ok f u =>
      rw [afterBindOk ran] at exist ⊢
      rw [after, ran] at captured drafts
      have kept := captured fun v member => (exist v member).trans_le supplies.values
      intro opened tracks
      exact (kept opened tracks).silent (.still rfl rfl rfl)

theorem paves {c : ClientCall} (describes : c.Describes) (fits : c.Fits fun _ => True) (grounded : c.Grounded s)
    (drafted : s.Drafted) : s.Paves (c.opens s) (after c.run s) := by
  cases c with
  | compile => exact describes.elim
  | start => exact (Supplies.ofSilent (draftsStart _ _ _ _ drafted) (.still rfl rfl rfl)).paves
  | visitInstruction ip => exact ((suppliesTells.visitInstruction ip).keeps s drafted).paves
  | startInstruction ip => exact ((suppliesTells.startInstruction ip).keeps s drafted).paves
  | saveState =>
    have exist : ∀ v ∈ (after (discard Method.saveState) s).captured ⟨s.forks.size⟩, s.IsValue v := grounded.1
    change s.Paves _ (after (discard Method.saveState) s)
    rw [afterDiscarded] at exist ⊢
    exact pavesSave exist drafted
  | restoreState f => exact Method.pavesRestore drafted (grounded.2 f rfl)
  | returnFromSubroutine r address => exact pavesReturning grounded.1 drafted
  | linkSubroutine r =>
    change s.Paves (match s.subroutines.getD r.index none with | some f => s.reopenings f | none => [])
      (after (Method.linkSubroutine r) s)
    rw [Method.afterLinkSubroutine]
    cases saved : s.subroutines.getD r.index none with
    | none => exact (Supplies.refl drafted).paves
    | some f => exact Method.pavesRestore drafted (grounded.2 f saved)
  | _ => exact ((suppliesTells.suits.plain (by exact trivial) fits).keeps s drafted).paves

end ClientCall

/-! Histories. -/

namespace State

def opened (s : State) : List ClientCall → List OpenedPath
  | [] => []
  | c :: rest => c.opens s ++ (after c.run s).opened rest

/-- Each call captures only values that there are and goes back only to states that were saved. -/
def Grounded (s : State) : List ClientCall → Prop
  | [] => True
  | c :: rest => c.Grounded s ∧ (after c.run s).Grounded rest

instance (s : State) : (calls : List ClientCall) → Decidable (s.Grounded calls)
  | [] => isTrue trivial
  | c :: rest =>
    haveI := instDecidableGrounded (after c.run s) rest
    inferInstanceAs (Decidable (_ ∧ _))

end State

variable {s : State} {calls : List ClientCall}

theorem historyPaves (describes : ∀ c ∈ calls, c.Describes) (fits : ∀ c ∈ calls, c.Fits fun _ => True)
    (grounded : s.Grounded calls) (drafted : s.Drafted) : s.Paves (s.opened calls) (s.history calls) := by
  induction calls generalizing s with
  | nil => exact (Supplies.refl drafted).paves
  | cons c rest ih =>
    have describes' := describes c List.mem_cons_self
    have fits' := fits c List.mem_cons_self
    have first := ClientCall.paves describes' fits' grounded.1 drafted
    refine first.trans (ih (fun c member => describes c (List.mem_cons_of_mem _ member))
      (fun c member => fits c (List.mem_cons_of_mem _ member)) grounded.2 ?_)
    exact ((ClientCall.drafts describes' fits').keeps s drafted).drafted

theorem tracksFresh (machine : Description) (settings : Settings) (emitter : Emitter) (helpers : Option HelperAddress) :
    (fresh machine settings emitter helpers).Tracks [] := by
  have none : ∀ f, ((fresh machine settings emitter helpers).forkAt f).forks = [] := fun f => by
    simp [fresh, State.empty, forkAt]
    rfl
  refine ⟨by simp, fun f v member => ?_, fun f => ?_, fun f g p member => ?_, fun f p member => ?_, fun v o last => ?_,
    fun r slots taken here => ?_⟩
  · rw [captured, none] at member
    cases member
  · rw [captured, none]
    exact List.nodup_nil
  · rw [none] at member
    cases member
  · rw [none] at member
    cases member
  · cases last
  · exact absurd (ReadTable.isReadOfPaths here) (Nat.not_lt_zero _)

theorem tracksHistory {machine : Description} {settings : Settings} {emitter : Emitter} {helpers : Option HelperAddress}
    (describes : ∀ c ∈ calls, c.Describes) (fits : ∀ c ∈ calls, c.Fits fun _ => True)
    (grounded : (fresh machine settings emitter helpers).Grounded calls) :
    ((fresh machine settings emitter helpers).history calls).Tracks ((fresh machine settings emitter helpers).opened calls) :=
  historyPaves describes fits grounded (draftedFresh ..) [] (tracksFresh ..)

end Lowering
