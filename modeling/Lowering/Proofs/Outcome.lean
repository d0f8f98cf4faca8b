import Lowering.State
import Lowering.Occupancy
import Mathlib.Data.List.Forall2
/-!
Successful work, taken apart. A piece of work that ends well consists of steps that end well; each
lemma says which steps and in which states.
-/
namespace Lowering

/-! Results without a state. -/

namespace Results

variable {α β : Type}

theorem bindOk {x : Except Error α} {f : α → Except Error β} {b : β} (ok : x >>= f = .ok b) :
    ∃ a, x = .ok a ∧ f a = .ok b := by
  cases x with
  | error e => cases ok
  | ok a => exact ⟨a, rfl, ok⟩

theorem mapMCons {f : α → Except Error β} {x : α} {rest : List α} {ys : List β}
    (ok : (x :: rest).mapM f = .ok ys) :
    ∃ y zs, ys = y :: zs ∧ f x = .ok y ∧ rest.mapM f = .ok zs := by
  rw [List.mapM_cons] at ok
  obtain ⟨y, here, ok⟩ := bindOk ok
  obtain ⟨zs, after, ok⟩ := bindOk ok
  cases ok
  exact ⟨y, zs, rfl, here, after⟩

theorem mapMOk {f : α → Except Error β} {xs : List α} {ys : List β} (ok : xs.mapM f = .ok ys) :
    List.Forall₂ (fun x y => f x = .ok y) xs ys := by
  induction xs generalizing ys with
  | nil =>
    cases ok
    exact .nil
  | cons x rest ih =>
    obtain ⟨y, zs, rfl, here, after⟩ := mapMCons ok
    exact .cons here (ih after)

theorem okMapM {f : α → Except Error β} {xs : List α} {ys : List β}
    (each : List.Forall₂ (fun x y => f x = .ok y) xs ys) : xs.mapM f = .ok ys := by
  induction each with
  | nil => rfl
  | cons here _ ih =>
    rw [List.mapM_cons, here, ih]
    rfl

end Results

namespace Build

/-! Work on any state. -/

section

variable {α β σ : Type} {s s' : σ}

@[simp] theorem pureOk {a b : α} : (pure a : EStateM Error σ α) s = .ok b s' ↔ a = b ∧ s = s' := by
  simp [pure, EStateM.pure]

@[simp] theorem throwOk {e : Error} {a : α} : (throw e : EStateM Error σ α) s = .ok a s' ↔ False :=
  ⟨fun h => (by cases h), False.elim⟩

theorem throwFails {e e' : Error} :
    (throw e : EStateM Error σ α) s = .error e' s' ↔ e = e' ∧ s = s' := by
  show EStateM.Result.error e s = .error e' s' ↔ _
  rw [EStateM.Result.error.injEq]

theorem throwBind {e : Error} {f : α → EStateM Error σ β} :
    ((throw e : EStateM Error σ α) >>= f) s = .error e s := rfl

@[simp] theorem pureError {a : α} {e : Error} : (pure a : EStateM Error σ α) s = .error e s' ↔ False := by
  simp [pure, EStateM.pure]

@[simp] theorem getOk {t : σ} : (get : EStateM Error σ σ) s = .ok t s' ↔ t = s ∧ s' = s := by
  show EStateM.Result.ok s s = .ok t s' ↔ _
  rw [EStateM.Result.ok.injEq, eq_comm, eq_comm (b := s')]

@[simp] theorem setOk {t : σ} {u : PUnit} : (set t : EStateM Error σ PUnit) s = .ok u s' ↔ s' = t := by
  show EStateM.Result.ok PUnit.unit t = .ok u s' ↔ _
  rw [EStateM.Result.ok.injEq, eq_self, true_and, eq_comm]

@[simp] theorem modifyGetOk {f : σ → α × σ} {a : α} :
    (modifyGet f : EStateM Error σ α) s = .ok a s' ↔ f s = (a, s') := by
  show EStateM.Result.ok (f s).1 (f s).2 = .ok a s' ↔ _
  rw [EStateM.Result.ok.injEq, Prod.ext_iff]

@[simp] theorem modifyOk {f : σ → σ} {u : PUnit} :
    (modify f : EStateM Error σ PUnit) s = .ok u s' ↔ s' = f s := by
  simp only [modify, modifyGetOk, Prod.ext_iff, true_and]
  exact eq_comm

theorem bindOk {x : EStateM Error σ α} {f : α → EStateM Error σ β} {b : β} :
    (x >>= f) s = .ok b s' ↔ ∃ a t, x s = .ok a t ∧ f a t = .ok b s' := by
  simp only [bind, EStateM.bind]
  cases h : x s with
  | ok a t => simp [and_assoc]
  | error e t => simp

theorem bindError {x : EStateM Error σ α} {f : α → EStateM Error σ β} {e : Error} :
    (x >>= f) s = .error e s' ↔ x s = .error e s' ∨ ∃ a t, x s = .ok a t ∧ f a t = .error e s' := by
  simp only [bind, EStateM.bind]
  cases h : x s with
  | ok a t => simp [and_assoc]
  | error e t => simp

theorem getBind {f : σ → EStateM Error σ β} : (get >>= f) s = f s s := rfl

theorem modifyBind {g : σ → σ} {f : PUnit → EStateM Error σ β} :
    (modify g >>= f) s = f ⟨⟩ (g s) := rfl

theorem modifyGetBind {g : σ → α × σ} {f : α → EStateM Error σ β} :
    (modifyGet g >>= f) s = f (g s).1 (g s).2 := rfl

theorem pureBind {a : α} {f : α → EStateM Error σ β} : (pure a >>= f) s = f a s := rfl

@[simp] theorem mapOk {x : EStateM Error σ α} {f : α → β} {b : β} :
    (f <$> x) s = .ok b s' ↔ ∃ a, x s = .ok a s' ∧ f a = b := by
  simp only [Functor.map, EStateM.map]
  cases h : x s with
  | ok a t => simp only [EStateM.Result.ok.injEq]; grind
  | error e t => simp

@[simp] theorem discardOk {x : EStateM Error σ α} {u : PUnit} :
    (discard x) s = .ok u s' ↔ ∃ a, x s = .ok a s' := by
  have mapped : discard x = (fun _ => PUnit.unit) <$> x := rfl
  simp [mapped]

theorem forMKeeps {P : σ → Prop} {f : α → EStateM Error σ PUnit} (xs : List α)
    (step : ∀ x ∈ xs, ∀ {s s' : σ}, P s → f x s = .ok ⟨⟩ s' → P s') :
    ∀ {s s' : σ}, P s → xs.forM f s = .ok ⟨⟩ s' → P s' := by
  induction xs with
  | nil =>
    intro s s' before ok
    obtain ⟨-, rfl⟩ := pureOk.mp ok
    exact before
  | cons x rest ih =>
    intro s s' before ok
    obtain ⟨⟨⟩, t, first, later⟩ := bindOk.mp ok
    refine ih (fun y member => step y (List.mem_cons_of_mem _ member)) ?_ later
    exact step x List.mem_cons_self before first

end

/-! Work on the state of compilation. -/

variable {α β : Type} {s s' : State}

@[simp] theorem invariantOk {f : InvariantFault} {a : α} :
    (invariant f : Build α) s = .ok a s' ↔ False := throwOk

@[simp] theorem invalidOk {f : OperandFault} {a : α} :
    (invalid f : Build α) s = .ok a s' ↔ False := throwOk

@[simp] theorem ensuringOk {act : Build α} {after : State → State} {a : α} :
    (ensuring act after) s = .ok a s' ↔ ∃ t, act s = .ok a t ∧ s' = after t := by
  unfold ensuring
  cases h : act s with
  | ok b t => simp only [EStateM.Result.ok.injEq]; grind
  | error e t => simp

@[simp] theorem whileFrozenOk {i : SiteId} {act : Build α} {a : α} :
    (whileFrozen i act) s = .ok a s' ↔
      ∃ t, act (s.freezeSite i) = .ok a t ∧ s' = t.thawSite i := by
  simp only [whileFrozen, bindOk, modifyOk, ensuringOk]
  exact ⟨fun ⟨_, _, h, r⟩ => h ▸ r, fun r => ⟨⟨⟩, _, rfl, r⟩⟩

def after (act : Build α) (s : State) : State :=
  match act s with
  | .ok _ t => t
  | .error _ t => t

theorem afterOk {act : Build α} {a : α} (ok : act s = .ok a s') : after act s = s' := by
  rw [after, ok]

def Succeeds (act : Build α) (s : State) : Prop := ∃ a s', act s = .ok a s'

instance (act : Build α) (s : State) : Decidable (Succeeds act s) :=
  match outcome : act s with
  | .ok a s' => isTrue ⟨a, s', outcome⟩
  | .error e s' => isFalse fun ⟨a, t, same⟩ => by
    rw [outcome] at same
    cases same

def Reaches (act : Build α) (s : State) (P : State → Prop) : Prop := ∃ a s', act s = .ok a s' ∧ P s'

instance (act : Build α) (s : State) (P : State → Prop) [DecidablePred P] :
    Decidable (Reaches act s P) :=
  match outcome : act s with
  | .ok a s' =>
    if holds : P s' then isTrue ⟨a, s', outcome, holds⟩
    else isFalse fun ⟨b, t, same, other⟩ => by
      rw [outcome] at same
      cases same
      exact holds other
  | .error e s' => isFalse fun ⟨a, t, same, _⟩ => by
    rw [outcome] at same
    cases same

end Build

end Lowering
