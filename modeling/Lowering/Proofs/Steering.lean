import Lowering.Proofs.Pending
/-!
The paths of forks.

Asking whether a read is valid and narrowing a mask by it drop reads, but the paths of a fork and how many of
them have been taken stay. Only taking a path moves on to the next one.
-/
namespace Lowering

def ReadKind.paths? : ReadKind → Option (List (Option ReadId) × Nat)
  | .fork _ paths taken => some (paths, taken)
  | _ => none

namespace ReadTable

variable {t t' : ReadTable} {r x : ReadId} {k : ReadKind}

def paths? (t : ReadTable) (r : ReadId) : Option (List (Option ReadId) × Nat) := (t.kind r).paths?

theorem pathsFork {reads : List ReadId} {paths : List (Option ReadId)} {taken : Nat}
    (kind : t.kind r = .fork reads paths taken) : t.paths? r = some (paths, taken) := by
  rw [paths?, kind]
  rfl

theorem pathsSetKind (t : ReadTable) (r x : ReadId) (k : ReadKind) :
    (t.setKind r k).paths? x = if x = r ∧ t.IsRead r then k.paths? else t.paths? x := by
  unfold paths?
  rw [ReadTable.kind, getSetKind]
  split <;> rfl

theorem pathsKept (same : k.paths? = t.paths? r) : (t.setKind r k).paths? = t.paths? := by
  funext x
  rw [pathsSetKind]
  split
  · rename_i here
    rw [same, here.1]
  · rfl

theorem pathsPush (t : ReadTable) (v : ValueId) (new : k.paths? = none) : (t.push v k).2.paths? = t.paths? := by
  funext x
  unfold paths? ReadTable.kind ReadTable.get push
  simp only [Array.getD_eq_getD_getElem?, Array.getElem?_push]
  split
  · rename_i last
    rw [last, Array.getElem?_eq_none (Nat.le_refl _)]
    exact new
  · rfl

theorem pathsPrune (t : ReadTable) (r : ReadId) (reads : List ReadId) : (t.prune r reads).paths? = t.paths? := by
  unfold prune
  split
  · rename_i kind
    exact pathsKept (pathsFork kind).symm
  · rfl

theorem pathsKeep {test : ReadTable → ReadId → Bool × ReadTable} (each : ∀ t r, (test t r).2.paths? = t.paths?)
    (reads : List ReadId) (t : ReadTable) : (keep test reads t).2.paths? = t.paths? := by
  induction reads generalizing t with
  | nil => rfl
  | cons r rest ih => exact (ih _).trans (each t r)

theorem pathsValidWithin (fuel : Nat) (entered : List ReadId) (t : ReadTable) (r : ReadId) :
    (validWithin fuel entered t r).2.paths? = t.paths? := by
  induction fuel generalizing entered t r with
  | zero => rfl
  | succ fuel ih =>
    unfold validWithin
    split
    · rfl
    · rfl
    · split
      · rfl
      · exact (pathsPrune ..).trans (pathsKeep (fun t r => ih _ t r) _ _)

theorem pathsValid (t : ReadTable) (r : ReadId) : (t.valid r).2.paths? = t.paths? := pathsValidWithin ..

theorem pathsNarrowEach {narrow : ReadTable → ReadId → SiteMask → Narrowed}
    (each : ∀ t r mask, (narrow t r mask).table.paths? = t.paths?) (reads : List ReadId) (t : ReadTable) (mask : SiteMask) :
    (narrowEach narrow reads t mask).2.2.paths? = t.paths? := by
  induction reads generalizing t mask with
  | nil => rfl
  | cons r rest ih => exact (ih _ _).trans (each t r mask)

theorem pathsDropTarget (t : ReadTable) (r : ReadId) : (t.dropTarget r).paths? = t.paths? := by
  unfold dropTarget
  split
  · rename_i kind
    exact pathsKept (by rw [paths?, kind]; rfl)
  · rfl

theorem pathsNarrowWithin (fuel : Nat) (entered : List ReadId) (depth : Nat) (t : ReadTable) (r : ReadId)
    (mask : SiteMask) : (narrowWithin fuel entered depth t r mask).table.paths? = t.paths? := by
  induction fuel generalizing entered depth t r mask with
  | zero => rfl
  | succ fuel ih =>
    unfold narrowWithin
    split
    · rfl
    · split
      · rfl
      · split
        · rfl
        · exact (pathsPrune ..).trans (pathsNarrowEach (fun t r mask => ih _ _ t r mask) _ _ _)
    · split
      · rfl
      · split
        · rfl
        · dsimp only
          split
          · exact ih ..
          · exact (pathsDropTarget ..).trans (ih ..)

theorem pathsNarrow (t : ReadTable) (r : ReadId) (mask : SiteMask) (depth : Nat) :
    (t.narrow r mask depth).table.paths? = t.paths? := pathsNarrowWithin ..

theorem pathsAimStub (t : ReadTable) (r target : ReadId) : (t.aimStub r target).paths? = t.paths? := by
  unfold aimStub
  split
  · rename_i kind
    exact pathsKept (by rw [paths?, kind]; rfl)
  · rfl

theorem pathsInvalidateStub (t : ReadTable) (r : ReadId) : (t.invalidateStub r).paths? = t.paths? := by
  unfold invalidateStub
  split
  · rename_i kind
    exact pathsKept (by rw [paths?, kind]; rfl)
  · rfl

theorem pathsTakePath {paths : List (Option ReadId)} {taken : Nat} (fork : t.paths? r = some (paths, taken)) :
    (t.takePath r).1 = paths[taken]?.join ∧
      (t.takePath r).2.paths? = Function.update t.paths? r (some (paths, taken + 1)) := by
  have known : t.IsRead r := by
    by_contra outside
    rw [paths?, kindOutside outside] at fork
    cases fork
  unfold paths? at fork
  unfold takePath
  cases kind : t.kind r with
  | single | stub =>
    rw [kind] at fork
    cases fork
  | fork reads paths' taken' =>
    rw [kind] at fork
    cases fork
    refine ⟨rfl, funext fun x => ?_⟩
    rw [pathsSetKind, Function.update_apply]
    simp only [known, and_true]
    rfl

end ReadTable

end Lowering
