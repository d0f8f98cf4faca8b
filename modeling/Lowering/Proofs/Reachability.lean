import Mathlib.Data.Finset.Card
import Mathlib.Data.Fintype.Pigeonhole
import Mathlib.Logic.Relation
import Lowering.Proofs.Client
/-!
Which events no control falls into.

Whether control leaves the method after a jump depends on the events before it, so the question follows the links
of jumps backwards. It asks about older links first and stops at the first event that control falls out of. Nothing
keeps it from going round in a loop of jumps, where it stays if every older link comes from an event that control
does not fall out of.
-/
namespace Lowering

open State Build

variable {α : Type} {f g : α → Option Bool} {xs : List α} {s : State} {e p first : EventId} {n m : Nat} {b : Bool}

/-! Questions about all of a list, in order. -/

theorem allMTrue : xs.allM f = some true ↔ ∀ x ∈ xs, f x = some true := by
  induction xs with
  | nil => simp
  | cons x rest ih =>
    rw [List.allM]
    cases answer : f x with
    | none => simp [answer]
    | some b => cases b <;> simp [answer, ih]

theorem allMMono (kept : ∀ x ∈ xs, ∀ b, f x = some b → g x = some b) (answer : xs.allM f = some b) :
    xs.allM g = some b := by
  induction xs with
  | nil => exact answer
  | cons x rest ih =>
    rw [List.allM] at answer ⊢
    cases asked : f x with
    | none => simp [asked] at answer
    | some c =>
      rw [kept x List.mem_cons_self c asked]
      rw [asked] at answer
      cases c with
      | false => exact answer
      | true => exact ih (fun y member => kept y (List.mem_cons_of_mem x member)) answer

theorem allMNone : xs.allM f = none ↔
    ∃ older x newer, xs = older ++ x :: newer ∧ (∀ y ∈ older, f y = some true) ∧ f x = none := by
  induction xs with
  | nil => simp
  | cons x rest ih =>
    rw [List.allM]
    cases asked : f x with
    | none =>
      refine iff_of_true rfl ⟨[], x, rest, rfl, by simp, asked⟩
    | some c =>
      cases c with
      | false =>
        refine iff_of_false (by simp) ?_
        rintro ⟨older, y, newer, split, yes, open_⟩
        cases older with
        | nil =>
          cases split
          rw [asked] at open_
          cases open_
        | cons z older =>
          cases split
          have answer := yes x List.mem_cons_self
          rw [asked] at answer
          cases answer
      | true =>
        refine ih.trans ⟨?_, ?_⟩
        · rintro ⟨older, y, newer, rfl, yes, open_⟩
          exact ⟨x :: older, y, newer, rfl, List.forall_mem_cons.mpr ⟨asked, yes⟩, open_⟩
        · rintro ⟨older, y, newer, split, yes, open_⟩
          cases older with
          | nil =>
            cases split
            rw [asked] at open_
            cases open_
          | cons z older =>
            cases split
            exact ⟨older, y, newer, rfl, fun y member => yes y (List.mem_cons_of_mem _ member), open_⟩

theorem allMAsks {older newer : List α} {x : α} (answer : (older ++ x :: newer).allM f = some b)
    (before : ∀ y ∈ older, f y ≠ some false) : f x ≠ none := by
  induction older with
  | nil =>
    intro open_
    rw [List.nil_append, List.allM, open_] at answer
    cases answer
  | cons y older ih =>
    rw [List.cons_append, List.allM] at answer
    cases asked : f y with
    | none => simp [asked] at answer
    | some c =>
      cases c with
      | false => exact absurd asked (before y List.mem_cons_self)
      | true =>
        rw [asked] at answer
        exact ih answer fun z member => before z (List.mem_cons_of_mem y member)

namespace State

/-! The two questions. -/

/-- Control leaves the method after the event: it is an exiting jump or a tail call. -/
def Exits (s : State) (p : EventId) : Prop :=
  match (s.event p).kind with
  | .call c => c.tail = true
  | .jump j => j.exit = true
  | _ => False

def JumpsOn (s : State) (p : EventId) : Prop :=
  match (s.event p).kind with
  | .jump j => j.exit = false
  | _ => False

/-- Whether no control falls out of an event, undecided if the predecessors are nested deeper than `fuel`. -/
def exitsWithin (s : State) (fuel : Nat) (p : EventId) : Option Bool :=
  match (s.event p).kind with
  | .call c => some c.tail
  | .jump j => if j.exit then some true else s.unreachableWithin fuel p
  | _ => some false

theorem unreachableStep (s : State) (n : Nat) (e : EventId) :
    s.unreachableWithin (n + 1) e = if (s.event e).predecessors = [] then some false
      else (s.event e).predecessors.allM fun l => s.exitsWithin n (s.link l).predecessor := by
  rw [unreachableWithin]
  simp only [List.isEmpty_iff]
  rfl

theorem exitsTrue : s.exitsWithin n p = some true ↔ s.Exits p ∨ s.JumpsOn p ∧ s.unreachableWithin n p = some true := by
  unfold exitsWithin Exits JumpsOn
  cases (s.event p).kind with
  | jump j => by_cases exit : j.exit = true <;> simp [exit]
  | _ => simp

theorem exitsJump (jumps : s.JumpsOn p) (n : Nat) : s.exitsWithin n p = s.unreachableWithin n p := by
  unfold JumpsOn at jumps
  unfold exitsWithin
  cases kind : (s.event p).kind with
  | jump j => simp_all
  | _ => simp [kind] at jumps

theorem exitsElse (other : ¬ s.JumpsOn p) : ∃ b, ∀ n, s.exitsWithin n p = some b := by
  unfold JumpsOn at other
  unfold exitsWithin
  cases kind : (s.event p).kind with
  | jump j => exact ⟨true, fun n => by simp_all⟩
  | call c => exact ⟨c.tail, fun n => rfl⟩
  | _ => exact ⟨false, fun n => rfl⟩

theorem JumpsOn.isEvent (jumps : s.JumpsOn p) : p.index < s.events.size := by
  by_contra outside
  have default : s.event p = default := by simp [event, outside]
  rw [JumpsOn, default] at jumps
  exact jumps

/-! Any answer is found within a depth of as many events as there are. -/

theorem unreachableMore : s.unreachableWithin n e = some b → s.unreachableWithin (n + 1) e = some b := by
  induction n generalizing e b with
  | zero => exact fun never => nomatch never
  | succ n ih =>
    intro answer
    rw [unreachableStep] at answer ⊢
    split
    · rename_i none
      rwa [if_pos none] at answer
    · rename_i some_
      rw [if_neg some_] at answer
      refine allMMono (fun l _ c asked => ?_) answer
      by_cases jumps : s.JumpsOn (s.link l).predecessor
      · rw [exitsJump jumps] at asked ⊢
        exact ih asked
      · obtain ⟨d, always⟩ := exitsElse jumps
        rw [always] at asked ⊢
        exact asked

theorem unreachableMono (more : n ≤ m) (answer : s.unreachableWithin n e = some b) :
    s.unreachableWithin m e = some b := by
  induction m, more using Nat.le_induction with
  | base => exact answer
  | succ m _ ih => exact unreachableMore ih

def settled (s : State) (n : Nat) : Finset Nat :=
  (Finset.range s.events.size).filter fun k => (s.unreachableWithin n ⟨k⟩).isSome

theorem settledGrows (s : State) (n : Nat) : s.settled n ⊆ s.settled (n + 1) := by
  refine Finset.monotone_filter_right _ fun k _ answered => ?_
  obtain ⟨b, answer⟩ := Option.isSome_iff_exists.mp answered
  rw [unreachableMore answer]
  rfl

theorem exitsSettled (same : s.settled n = s.settled (n + 1)) (p : EventId) :
    s.exitsWithin (n + 1) p = s.exitsWithin n p := by
  by_cases jumps : s.JumpsOn p
  · rw [exitsJump jumps, exitsJump jumps]
    cases answer : s.unreachableWithin n p with
    | some b => exact unreachableMore answer
    | none =>
      have open_ : p.index ∉ s.settled n := by simp [settled, answer]
      rw [same] at open_
      simpa [settled, JumpsOn.isEvent jumps] using open_
  · obtain ⟨b, always⟩ := exitsElse jumps
    rw [always, always]

theorem unreachableSettled (same : s.settled n = s.settled (n + 1)) (more : n ≤ m) :
    s.unreachableWithin (m + 1) e = s.unreachableWithin (n + 1) e ∧ s.settled m = s.settled (m + 1) := by
  induction m, more using Nat.le_induction with
  | base => exact ⟨rfl, same⟩
  | succ m _ ih =>
    have stays : ∀ e, s.unreachableWithin (m + 2) e = s.unreachableWithin (m + 1) e := by
      intro e
      rw [unreachableStep, unreachableStep]
      simp only [exitsSettled ih.2]
    exact ⟨(stays e).trans ih.1, by simp only [settled, stays]⟩

theorem settlesSoon (s : State) : ∃ n ≤ s.events.size, s.settled n = s.settled (n + 1) := by
  by_contra never
  push Not at never
  have grows : ∀ n ≤ s.events.size + 1, n ≤ (s.settled n).card := by
    intro n
    induction n with
    | zero => exact fun _ => Nat.zero_le _
    | succ n ih =>
      intro within
      have more := Finset.card_lt_card ((s.settledGrows n).ssubset_of_ne (never n (by omega)))
      have before := ih (by omega)
      omega
  have most := Finset.card_le_card (Finset.filter_subset (fun k => (s.unreachableWithin (s.events.size + 1) ⟨k⟩).isSome)
    (Finset.range s.events.size))
  rw [Finset.card_range] at most
  have least := grows _ le_rfl
  unfold settled at least
  omega

theorem unreachableEnough (answer : s.unreachableWithin n e = some b) :
    s.unreachableWithin (s.events.size + 1) e = some b := by
  by_cases few : n ≤ s.events.size + 1
  · exact unreachableMono few answer
  · obtain ⟨m, soon, same⟩ := s.settlesSoon
    obtain ⟨k, rfl⟩ : ∃ k, n = k + 1 := ⟨n - 1, by omega⟩
    rw [(unreachableSettled same (by omega)).1] at answer
    exact unreachableMono (by omega) answer

theorem exitsEnough (answer : s.exitsWithin n p = some b) : s.exitsWithin (s.events.size + 1) p = some b := by
  by_cases jumps : s.JumpsOn p
  · rw [exitsJump jumps] at answer ⊢
    exact unreachableEnough answer
  · obtain ⟨c, always⟩ := exitsElse jumps
    rw [always] at answer ⊢
    exact answer

/-! When there is an answer, and what it means. -/

inductive Leaves (s : State) : EventId → Prop
  | exits {p : EventId} (exits : s.Exits p) : s.Leaves p
  | jumps {p : EventId} (jumps : s.JumpsOn p) (entered : (s.event p).predecessors ≠ [])
      (all : ∀ l ∈ (s.event p).predecessors, s.Leaves (s.link l).predecessor) : s.Leaves p

/-- The question for one event depends on that for another: this is a jump that leads to it, and no control falls out
of the events that older links come from. -/
def Asks (s : State) (e p : EventId) : Prop :=
  ∃ older l newer, (s.event e).predecessors = older ++ l :: newer ∧ (s.link l).predecessor = p ∧ s.JumpsOn p ∧
    ∀ k ∈ older, s.Leaves (s.link k).predecessor

def Circles (s : State) (e : EventId) : Prop := ∃ p, Relation.ReflTransGen s.Asks e p ∧ Relation.TransGen s.Asks p p

/-- A chain of links from one event to another, and the events before the last. -/
inductive Chain (s : State) (first : EventId) : EventId → List EventId → Prop
  | start : s.Chain first first []
  | link {l : LinkId} {e : EventId} {passed : List EventId} (chain : s.Chain first (s.link l).predecessor passed)
      (enters : l ∈ (s.event e).predecessors) : s.Chain first e ((s.link l).predecessor :: passed)

theorem unreachableTrue : s.unreachableWithin (n + 1) e = some true ↔
    (s.event e).predecessors ≠ [] ∧ ∀ l ∈ (s.event e).predecessors, s.exitsWithin n (s.link l).predecessor = some true := by
  rw [unreachableStep]
  split
  · simp_all
  · rename_i some_
    rw [allMTrue]
    exact (and_iff_right some_).symm

theorem leavesIff : s.Leaves p ↔ ∃ n, s.exitsWithin n p = some true := by
  constructor
  · intro leaves
    induction leaves with
    | exits exits => exact ⟨0, exitsTrue.mpr (.inl exits)⟩
    | jumps jumps entered _ ih =>
      refine ⟨s.events.size + 2, exitsTrue.mpr (.inr ⟨jumps, unreachableTrue.mpr ⟨entered, fun l enters => ?_⟩⟩)⟩
      obtain ⟨n, answer⟩ := ih l enters
      exact exitsEnough answer
  · rintro ⟨n, answer⟩
    induction n generalizing p with
    | zero =>
      rcases exitsTrue.mp answer with exits | ⟨-, never⟩
      · exact .exits exits
      · cases never
    | succ n ih =>
      rcases exitsTrue.mp answer with exits | ⟨jumps, asked⟩
      · exact .exits exits
      · obtain ⟨entered, all⟩ := unreachableTrue.mp asked
        exact .jumps jumps entered fun l enters => ih (all l enters)

theorem asksAnswered (answer : s.unreachableWithin n e = some b) (asks : s.Asks e p) :
    ∃ m < n, ∃ c, s.unreachableWithin m p = some c := by
  cases n with
  | zero => cases answer
  | succ n =>
    obtain ⟨older, l, newer, split, rfl, jumps, all⟩ := asks
    refine ⟨n, n.lt_succ_self, ?_⟩
    rw [unreachableStep, split, if_neg (by simp)] at answer
    have asked := allMAsks answer fun k member no => by
      obtain ⟨m, yes⟩ := leavesIff.mp (all k member)
      have both := (exitsEnough no).symm.trans (exitsEnough yes)
      cases both
    rw [exitsJump jumps] at asked
    exact Option.ne_none_iff_exists'.mp asked

theorem asksAllAnswered (answer : s.unreachableWithin n e = some b) (asks : Relation.TransGen s.Asks e p) :
    ∃ m < n, ∃ c, s.unreachableWithin m p = some c := by
  induction asks with
  | single asks => exact asksAnswered answer asks
  | tail _ asks ih =>
    obtain ⟨m, less, c, answer⟩ := ih
    obtain ⟨k, less', answer⟩ := asksAnswered answer asks
    exact ⟨k, less'.trans less, answer⟩

theorem loopUnanswered (loop : Relation.TransGen s.Asks p p) (n : Nat) : s.unreachableWithin n p = none := by
  induction n using Nat.strong_induction_on with
  | h n ih =>
    by_contra answered
    obtain ⟨b, answer⟩ := Option.ne_none_iff_exists'.mp answered
    obtain ⟨m, less, c, answer⟩ := asksAllAnswered answer loop
    rw [ih m less] at answer
    cases answer

theorem openAsks (undecided : ∀ n, s.unreachableWithin n e = none) :
    ∃ p, s.Asks e p ∧ ∀ n, s.unreachableWithin n p = none := by
  have here := undecided (s.events.size + 2)
  rw [unreachableStep] at here
  split at here
  · cases here
  · obtain ⟨older, l, newer, split, yes, asked⟩ := allMNone.mp here
    have jumps : s.JumpsOn (s.link l).predecessor := by
      by_contra other
      obtain ⟨c, always⟩ := exitsElse other
      rw [always] at asked
      cases asked
    refine ⟨_, ⟨older, l, newer, split, rfl, jumps, fun k member => leavesIff.mpr ⟨_, yes k member⟩⟩, fun n => ?_⟩
    rw [exitsJump jumps] at asked
    by_contra answered
    obtain ⟨c, answer⟩ := Option.ne_none_iff_exists'.mp answered
    rw [unreachableEnough answer] at asked
    cases asked

/- There are only so many events, so a question that depends on others without end comes back to one of them. -/
theorem openCircles (undecided : ∀ n, s.unreachableWithin n e = none) : s.Circles e := by
  choose next asks stays using fun q : {q : EventId // ∀ n, s.unreachableWithin n q = none} => openAsks q.2
  let walk (k : Nat) : {q : EventId // ∀ n, s.unreachableWithin n q = none} :=
    Nat.rec ⟨e, undecided⟩ (fun _ q => ⟨next q, stays q⟩) k
  have step (k : Nat) : s.Asks (walk k).1 (walk (k + 1)).1 := asks (walk k)
  have reaches (k m : Nat) : Relation.ReflTransGen s.Asks (walk k).1 (walk (k + m)).1 := by
    induction m with
    | zero => exact .refl
    | succ m ih => exact ih.tail (step (k + m))
  have isEvent (k : Nat) : (walk (k + 1)).1.index < s.events.size := by
    obtain ⟨_, _, _, _, _, jumps, _⟩ := step k
    exact JumpsOn.isEvent jumps
  obtain ⟨j, k, apart, same⟩ := Finite.exists_ne_map_eq_of_infinite
    fun k : Nat => (⟨(walk (k + 1)).1.index, isEvent k⟩ : Fin s.events.size)
  have loop : ∀ {j k : Nat}, j < k → (walk (j + 1)).1.index = (walk (k + 1)).1.index → s.Circles e := by
    intro j k less same
    have back : (walk (k + 1)).1 = (walk (j + 1)).1 := by
      cases h : (walk (k + 1)).1
      cases h' : (walk (j + 1)).1
      simp_all
    have whole := reaches 0 (j + 1)
    have round := Relation.TransGen.head' (step (j + 1)) (reaches (j + 2) (k - j - 1))
    rw [Nat.zero_add] at whole
    rw [show j + 2 + (k - j - 1) = k + 1 by omega, back] at round
    exact ⟨_, whole, round⟩
  have same : (walk (j + 1)).1.index = (walk (k + 1)).1.index := congrArg Fin.val same
  rcases Nat.lt_or_gt_of_ne apart with less | less
  · exact loop less same
  · exact loop less same.symm

theorem answeredIff : (∃ n b, s.unreachableWithin n e = some b) ↔ ¬ s.Circles e := by
  constructor
  · rintro ⟨n, b, answer⟩ ⟨p, asks, round⟩
    rcases Relation.reflTransGen_iff_eq_or_transGen.mp asks with rfl | asks
    · rw [loopUnanswered round] at answer
      cases answer
    · obtain ⟨m, -, c, answer⟩ := asksAllAnswered answer asks
      rw [loopUnanswered round] at answer
      cases answer
  · intro straight
    by_contra undecided
    refine straight (openCircles fun n => ?_)
    by_contra answered
    obtain ⟨b, answer⟩ := Option.ne_none_iff_exists'.mp answered
    exact undecided ⟨n, b, answer⟩

/- On any chain to an event that no control falls out of there is one that control leaves the method after, unless
that is asked about the first event. -/
theorem leavesChain {passed : List EventId} (leaves : s.Leaves p) (chain : s.Chain first p passed) :
    (∃ q ∈ p :: passed, s.Exits q) ∨
      (s.event first).predecessors ≠ [] ∧ ∀ l ∈ (s.event first).predecessors, s.Leaves (s.link l).predecessor := by
  induction leaves generalizing passed with
  | exits exits => exact .inl ⟨_, List.mem_cons_self, exits⟩
  | jumps jumps entered all ih =>
    cases chain with
    | start => exact .inr ⟨entered, all⟩
    | link chain enters =>
      refine (ih _ enters chain).imp_left ?_
      rintro ⟨q, member, exits⟩
      exact ⟨q, List.mem_cons_of_mem _ member, exits⟩

end State

theorem unreachableOk : unreachable e s = .ok b s ↔ ∃ n, s.unreachableWithin n e = some b := by
  rw [unreachable, getBind]
  constructor
  · intro ok
    cases answer : s.unreachableWithin (s.events.size + 1) e with
    | none => simp [answer] at ok
    | some c =>
      simp only [answer] at ok
      exact ⟨_, (pureOk.mp ok).1 ▸ answer⟩
  · rintro ⟨n, answer⟩
    rw [unreachableEnough answer]
    rfl

/-- The depth bound never leaves a question open, so there is an answer unless the question goes round in a loop.
If it is yes, every chain of links from the first event passes one after which control leaves the method. This needs
that the answer for the first event is no. -/
theorem reachabilityAnswers (s : State) (e : EventId) :
    (∀ b, unreachable e s = .ok b s ↔ ∃ n, s.unreachableWithin n e = some b) ∧
    ((∃ b, unreachable e s = .ok b s) ↔ ¬ s.Circles e) ∧
    ((∃ n b, s.exitsWithin n e = some b) ↔ (s.JumpsOn e → ¬ s.Circles e)) ∧
    (unreachable e s = .ok true s → ∀ first passed, s.Chain first e passed →
      (∃ p ∈ passed, s.Exits p) ∨ unreachable first s = .ok true s) := by
  refine ⟨fun _ => unreachableOk, ?_, ?_, fun ok first passed chain => ?_⟩
  · simp only [unreachableOk]
    rw [exists_comm]
    exact answeredIff
  · by_cases jumps : s.JumpsOn e
    · simp only [exitsJump jumps, answeredIff, jumps, true_implies]
    · obtain ⟨b, always⟩ := exitsElse jumps
      exact iff_of_true ⟨0, b, always 0⟩ fun other => absurd other jumps
  · have cut : ∀ {e}, unreachable e s = .ok true s ↔ (s.event e).predecessors ≠ [] ∧
        ∀ l ∈ (s.event e).predecessors, s.Leaves (s.link l).predecessor := by
      intro e
      rw [unreachableOk]
      refine ⟨fun ⟨n, answer⟩ => ?_, fun ⟨entered, all⟩ => ?_⟩
      · obtain ⟨entered, all⟩ := unreachableTrue.mp (unreachableMore answer)
        exact ⟨entered, fun l enters => leavesIff.mpr ⟨_, all l enters⟩⟩
      · refine ⟨s.events.size + 2, unreachableTrue.mpr ⟨entered, fun l enters => ?_⟩⟩
        obtain ⟨n, answer⟩ := leavesIff.mp (all l enters)
        exact exitsEnough answer
    rw [cut] at ok ⊢
    cases chain with
    | start => exact .inr ok
    | link chain enters => exact leavesChain (ok.2 _ enters) chain

def ClientCall.deadLoop : List ClientCall :=
  [.start 2 0 0 2, .constant 4096 .general, .startInstruction 0, .exit ⟨0⟩, .startInstruction 1, .jump ⟨0⟩,
    .visitInstruction 1]

/-- Control exits to the place where the method begins, in front of all instructions. -/
def ClientCall.deadStart : List ClientCall :=
  [.start 1 0 0 2, .leave none, .constant 4096 .general, .exit ⟨0⟩, .visitInstruction (2 ^ 32 - 1)]

/- In a loop that only an exit leads to the question goes round. Where an exit leads to the first event, nothing is
said to lead there, although no event has to be passed. -/
theorem loopsAndStarts :
    (∃ e, ∀ n, (described ClientCall.deadLoop).unreachableWithin n e = none) ∧
      ∃ first, (described ClientCall.deadStart).firstEvent = some first ∧
        unreachable first (described ClientCall.deadStart) = .ok true (described ClientCall.deadStart) ∧
        (described ClientCall.deadStart).Chain first first [] := by
  have loop : let s := described ClientCall.deadLoop
      (s.event ⟨2⟩).predecessors = [⟨1⟩, ⟨2⟩] ∧ (s.link ⟨1⟩).predecessor = ⟨1⟩ ∧ (s.link ⟨2⟩).predecessor = ⟨2⟩ ∧
        s.exitsWithin 0 ⟨1⟩ = some true ∧ s.exitsWithin 0 ⟨2⟩ = none := by
    decide +kernel
  refine ⟨⟨⟨2⟩, loopUnanswered (.single ?_)⟩, ⟨⟨0⟩, by decide +kernel, unreachableOk.mpr ⟨2, by decide +kernel⟩, .start⟩⟩
  obtain ⟨split, exit, jump, exits, asked⟩ := loop
  refine ⟨[⟨1⟩], ⟨2⟩, [], split, jump, ?_, fun k member => ?_⟩
  · by_contra other
    obtain ⟨b, always⟩ := exitsElse other
    rw [always] at asked
    cases asked
  · rw [List.mem_singleton.mp member, exit]
    exact leavesIff.mpr ⟨0, exits⟩

end Lowering
