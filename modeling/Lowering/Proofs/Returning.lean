import Lowering.Proofs.Client
import Lowering.Proofs.Precedence
/-!
Returning to a saved frame.

A fork keeps the numbers of the stack and the locals at a branch. Stacks are never changed, and an
array of locals only where a local is declared in it while it is current. So a client that returns
to a fork finds the stack as it was, and the locals unless it has declared one in their array.
-/
namespace Lowering

open Build State

variable {s s' t : State} {K : LocalsId → Prop} {f : ForkId}

theorem Outline.Housed.keep (housed : s.outline.Housed K) : s.outline.Housed (· = s.locals) :=
  ⟨housed.current, housed.ordered, housed.forks, housed.events, housed.entries, fun _ same =>
    same ▸ housed.current.locals⟩

theorem Outline.Later.forkAt (later : s.outline.Later K s'.outline) (inside : f.index < s.forks.size) :
    s'.forkAt f = s.forkAt f := by
  have same : s'.forks[f.index]? = s.forks[f.index]? := later.forks f.index inside
  simp only [State.forkAt, Array.getD_eq_getD_getElem?, same]

theorem Outline.Later.forkInside (later : s.outline.Later K s'.outline) (inside : f.index < s.forks.size) :
    f.index < s'.forks.size := by
  have same : s'.forks[f.index]? = s.forks[f.index]? := later.forks f.index inside
  rw [Array.getElem?_eq_getElem inside] at same
  exact (Array.getElem?_eq_some_iff.mp same).1

structure State.StandsAt (s : State) (f : ForkId) : Prop where
  inside : f.index < s.forks.size
  stack : s.stack = (s.forkAt f).stack
  locals : s.locals = (s.forkAt f).locals

theorem captureStands (ok : Method.captureState s = .ok f s') : s'.StandsAt f := by
  simp only [Method.captureState, bindOk, modifyGetOk, Prod.mk.injEq] at ok
  obtain ⟨_, _, -, _, _, -, _, _, -, _, _, -, _, u, -, rfl, rfl⟩ := ok
  constructor <;> simp [forkAt]

theorem restoreStands (housed : s.outline.Housed K) (inside : f.index < s.forks.size)
    (ok : Method.restoreState f s = .ok ⟨⟩ s') :
    s'.StandsAt f ∧ s'.outline.Housed K ∧ s.outline.Later K s'.outline := by
  obtain ⟨-, housed', later⟩ := ((Method.followsRestoreState f).holds ok).holds trivial housed
  simp only [Method.restoreState, bindOk, modifyOk] at ok
  obtain ⟨⟨⟩, t, ensured, ended⟩ := ok
  obtain ⟨-, -, before⟩ := (followsEnsureEvent.holds ensured).holds (I := fun _ => True) trivial housed
  have outline : s'.outline =
      { t with stack := (t.forkAt f).stack, locals := (t.forkAt f).locals }.outline := by
    rw [ended]
    split
    · rfl
    · exact foldlSame fun _ _ => rfl
  have same : t.forkAt f = s'.forkAt f := (before.forkAt inside).trans (later.forkAt inside).symm
  rw [same] at outline
  exact ⟨⟨later.forkInside inside, congrArg Outline.stack outline, congrArg Outline.locals outline⟩,
    housed', later⟩

theorem saveStands (housed : s.outline.Housed K) (ok : Method.saveState s = .ok f s') :
    s'.StandsAt f ∧ s'.outline.Housed K := by
  simp only [Method.saveState, bindOk, pureOk] at ok
  obtain ⟨g, t, captured, ⟨⟩, u, restored, rfl, rfl⟩ := ok
  obtain ⟨-, housed, -⟩ := (Method.followsCaptureState.holds captured).holds (I := fun _ => True) trivial housed
  obtain ⟨stands, housed, -⟩ := restoreStands housed (captureStands captured).inside restored
  exact ⟨stands, housed⟩

/- Between saving and returning the client may make any calls. -/
theorem restoringReturns {machine : Description} {settings : Settings} {emitter : Emitter}
    {helpers : Option HelperAddress} {before between : List ClientCall} {saved restored : State}
    (saves : Method.saveState ((fresh machine settings emitter helpers).history before) = .ok f saved)
    (restores : Method.restoreState f (saved.history between) = .ok ⟨⟩ restored) :
    (restored.frames.stackNodes restored.stack).map (·.value) =
        (saved.frames.stackNodes saved.stack).map (·.value) ∧
      (saved.Undeclared (· = saved.locals) between →
        restored.frames.locals restored.locals = saved.frames.locals saved.locals) := by
  have started := historyKeeps before undeclaredNone
    (housedFresh machine settings emitter helpers)
  obtain ⟨here, housed⟩ := saveStands started.housed saves
  have returned : ∀ {K : LocalsId → Prop}, saved.Undeclared K between → saved.outline.Housed K →
      restored.stack = saved.stack ∧ restored.locals = saved.locals ∧
        saved.outline.Later K restored.outline := by
    intro K undeclared housed
    obtain ⟨housed', later, -⟩ := historyKeeps between undeclared housed
    obtain ⟨there, -, last⟩ := restoreStands housed' (later.forkInside here.inside) restores
    have same := (later.trans last).forkAt here.inside
    exact ⟨there.stack.trans (same ▸ here.stack.symm), there.locals.trans (same ▸ here.locals.symm),
      later.trans last⟩
  constructor
  · obtain ⟨stack, -, later⟩ := returned undeclaredNone housed
    have same : restored.frames.stackNodes saved.stack = saved.frames.stackNodes saved.stack :=
      later.frames.stackNodes housed.ordered housed.current
    rw [stack, same]
  · intro undeclared
    obtain ⟨-, locals, later⟩ := returned undeclared housed.keep
    rw [locals]
    exact later.same _ rfl

def ClientCall.branching : List ClientCall :=
  [.start 3 0 1 2, .startInstruction 0, .register 1, .constant 0 .general, .push 1 ⟨0⟩,
    .instructionAddress 2, .promiseConstant ⟨1⟩ .general, .branch .jumpIfEqual 8 ⟨1⟩ ⟨0⟩ ⟨2⟩]

def ClientCall.declaring : List ClientCall :=
  [.startInstruction 2, .declareLocal 1 0 .general, .leave (some ⟨3⟩)]

def ClientCall.storing : List ClientCall :=
  [.startInstruction 2, .pop 1, .storeLocal 1 ⟨0⟩ 0, .leave (some ⟨0⟩)]

def ClientCall.returnAfter (path : List ClientCall) : Build ForkId := do
  let f ← Method.saveState
  modify (·.history path)
  Method.restoreState f
  return f

theorem ClientCall.returned {path : List ClientCall} (ok : returnAfter path s = .ok f s') :
    ∃ saved, Method.saveState s = .ok f saved ∧
      Method.restoreState f (saved.history path) = .ok ⟨⟩ s' := by
  simp only [returnAfter, bindOk, modifyOk, pureOk] at ok
  obtain ⟨f, saved, saves, ⟨⟩, _, rfl, ⟨⟩, _, restores, rfl, rfl⟩ := ok
  exact ⟨saved, saves, restores⟩

theorem storedReturns : ∃ (f : ForkId) (saved restored : State),
    Method.saveState (blank.history ClientCall.branching) = .ok f saved ∧
      Method.restoreState f (saved.history ClientCall.storing) = .ok ⟨⟩ restored ∧
      (restored.frames.stackNodes restored.stack).map (·.value) =
        (saved.frames.stackNodes saved.stack).map (·.value) ∧
      restored.frames.locals restored.locals = saved.frames.locals saved.locals := by
  obtain ⟨f, restored, ok⟩ : Succeeds (ClientCall.returnAfter ClientCall.storing)
      (blank.history ClientCall.branching) := by decide +kernel
  obtain ⟨saved, saves, restores⟩ := ClientCall.returned ok
  have returns := restoringReturns saves restores
  refine ⟨f, saved, restored, saves, restores, returns.1, returns.2 ?_⟩
  simp [Undeclared, ClientCall.storing, ClientCall.Declares]

/- The array is current when the local is declared, so the other path finds the local in it. -/
theorem declaredLeaks : ∃ (f : ForkId) (saved restored : State),
    Method.saveState (blank.history ClientCall.branching) = .ok f saved ∧
      Method.restoreState f (saved.history ClientCall.declaring) = .ok ⟨⟩ restored ∧
      restored.frames.locals restored.locals ≠ saved.frames.locals saved.locals := by
  obtain ⟨f, restored, ok, found⟩ : Reaches (ClientCall.returnAfter ClientCall.declaring)
      (blank.history ClientCall.branching) fun s => s.frames.locals s.locals = [some ⟨3⟩] := by
    decide +kernel
  obtain ⟨g, t, saved, empty⟩ : Reaches Method.saveState (blank.history ClientCall.branching)
      fun s => s.frames.locals s.locals = [none] := by decide +kernel
  obtain ⟨_, saves, restores⟩ := ClientCall.returned ok
  cases saved.symm.trans saves
  refine ⟨f, t, restored, saves, restores, ?_⟩
  rw [found, empty]
  decide

end Lowering
