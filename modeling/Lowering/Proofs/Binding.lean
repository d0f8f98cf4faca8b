import Lowering.Proofs.Lending
import Lowering.Proofs.Placing
import Mathlib.Data.List.Infix
import Mathlib.Data.List.Nodup
/-!
Where targets end up.

A target that is bound gets a label at the current position. It shares the label that waits there unless it has one
already; one it has is put down there, behind a no-operation if another one waits. Either way the position is found,
nothing that was bound before moves, and whatever is emitted next comes behind.
-/
namespace Lowering.X64

open Build

namespace Assembler

variable {a a' b : Assembler} {l : Label} {t u : CodeTarget} {i : Nat}

structure Grows (a a' : Assembler) : Prop where
  code : a.code.toList <+: a'.code.toList
  stands : ∀ {l i}, a.StandsAt l i → a'.StandsAt l i
  labels : a.labels <+: a'.labels
  sound : a'.Sound

theorem Extends.grows (more : a.Extends a') (sound : a.Sound) : a.Grows a' :=
  ⟨more.code, more.stands, more.labels, more.sound sound⟩

theorem Grows.trans (first : a.Grows a') (second : a'.Grows b) : a.Grows b :=
  ⟨first.code.trans second.code, second.stands ∘ first.stands, first.labels.trans second.labels, second.sound⟩

def Lands (a : Assembler) (t : CodeTarget) (i : Nat) : Prop := ∃ l, (t, l) ∈ a.labels ∧ a.StandsAt l i

theorem Grows.lands (grows : a.Grows a') : a.Lands t i → a'.Lands t i
  | ⟨l, named, stands⟩ => ⟨l, grows.labels.subset named, grows.stands stands⟩

structure Binds (a a' : Assembler) (t : CodeTarget) : Prop extends a.Grows a' where
  bound : a'.bound = a.bound ++ [t]
  lands : a'.Lands t a'.code.size

theorem bindsShared (sound : a.Sound) (new : a.labels.lookup t = none) (waits : a.pending = some l) :
    a.Binds { a with bound := a.bound ++ [t], labels := a.labels ++ [(t, l)] } t := by
  have stands := sound.waits.mpr waits
  have members {u k} : (u, k) ∈ a.labels ++ [(t, l)] ↔ (u, k) ∈ a.labels ∨ u = t ∧ k = l := by simp
  have there : l < a.places.size := (Array.getElem?_eq_some_iff.mp stands).1
  refine ⟨⟨List.prefix_rfl, id, List.prefix_append .., ?_⟩, rfl, l, members.mpr (.inr ⟨rfl, rfl⟩), stands⟩
  -- a label that stands nowhere is not the one that waits
  have other {u k} (named : (u, k) ∈ a.labels ++ [(t, l)]) (free : a.places[k]? = some none) : (u, k) ∈ a.labels := by
    rcases members.mp named with old | ⟨-, rfl⟩
    · exact old
    · exact nomatch stands.symm.trans free
  refine ⟨sound.inside, sound.waits, onceMore sound.once new _, fun named => ?_, fun member => ?_,
    fun named loose => ?_, fun first second free => sound.apart (other first free) (other second free) free⟩
  · rcases members.mp named with old | ⟨-, rfl⟩
    · exact sound.known old
    · exact there
  · rcases List.mem_append.mp member with old | added
    · obtain ⟨k, i, named, stands⟩ := sound.bound old
      exact ⟨k, i, members.mpr (.inl named), stands⟩
    · exact ⟨l, a.code.size, members.mpr (.inr ⟨List.mem_singleton.mp added, rfl⟩), stands⟩
  · rcases members.mp named with old | ⟨rfl, -⟩
    · exact sound.unbound old fun member => loose (List.mem_append_left _ member)
    · exact absurd (List.mem_append_right _ List.mem_cons_self) loose

theorem bindsStand (sound : a.Sound) (settable : a.Settable l) (named : (t, l) ∈ a.labels) :
    a.Binds { a.stand l with bound := a.bound ++ [t] } t := by
  have stands {k i} : (a.stand l).StandsAt k i ↔ _ := standsStand settable
  -- a label that stands nowhere is another one, and was free before
  have free {k} (free : (a.stand l).places[k]? = some none) : k ≠ l ∧ a.places[k]? = some none := by
    rw [placesStand settable.there] at free
    split at free
    · cases free
    · exact ⟨by assumption, free⟩
  refine ⟨⟨List.prefix_rfl, fun before => stands.mpr (.inl before), List.prefix_rfl, ?_⟩, rfl, l, named,
    stands.mpr (.inr ⟨rfl, rfl⟩)⟩
  refine ⟨fun at_ => ?_, standWaits settable, sound.once, fun old => ?_, fun member => ?_, fun old loose => ?_,
    fun first second loose => sound.apart first second (free loose).2⟩
  · rcases stands.mp at_ with before | ⟨-, rfl⟩
    · exact sound.inside before
    · exact Nat.le_refl _
  · simpa [stand] using sound.known old
  · rcases List.mem_append.mp member with before | added
    · obtain ⟨k, i, named, at_⟩ := sound.bound before
      exact ⟨k, i, named, stands.mpr (.inl at_)⟩
    · exact ⟨l, a.code.size, List.mem_singleton.mp added ▸ named, stands.mpr (.inr ⟨rfl, rfl⟩)⟩
  · refine (placesStand settable.there).trans ?_
    rw [if_neg]
    · exact sound.unbound old fun member => loose (List.mem_append_left _ member)
    · rintro rfl
      exact loose (List.mem_append_right _ (List.mem_singleton.mpr (sound.apart old named settable.free)))

theorem Extends.binds (more : a.Extends a') (sound : a.Sound) (binds : a'.Binds b t) : a.Binds b t :=
  ⟨(more.grows sound).trans binds.toGrows, more.bound ▸ binds.bound, binds.lands⟩

theorem paddedSettable (sound : a.Sound) (free : a.places[l]? = some none) : a.padded.Settable l := by
  have same : a.padded.places = a.places := by
    unfold padded
    split <;> rfl
  have clear : a.padded.pending = none := by
    unfold padded
    split
    · rfl
    · exact Option.not_isSome_iff_eq_none.mp (by assumption)
  rw [← same] at free
  refine ⟨(Array.getElem?_eq_some_iff.mp free).1, free, fun k stands => ?_⟩
  exact nomatch clear.symm.trans ((a.extendsPadded.sound sound).waits.mp stands)

end Assembler

namespace Asm

variable {s : Assembler} {t : CodeTarget}

theorem bindEq (t : CodeTarget) (s : Assembler) :
    Asm.bind t s = if t ∈ s.bound then .error (.emission (.boundTwice t)) s
      else match s.labels.lookup t, s.pending with
        | none, some here => .ok () { s with bound := s.bound ++ [t], labels := s.labels ++ [(t, here)] }
        | _, _ => (do place (← labelOf t) : Asm Unit) { s with bound := s.bound ++ [t] } := by
  have steps : Asm.bind t s = (do
      if t ∈ s.bound then throw (.emission (.boundTwice t))
      modify fun a => { a with bound := a.bound ++ [t] }
      match s.labels.lookup t, s.pending with
      | none, some here => modify fun a => { a with labels := a.labels ++ [(t, here)] }
      | _, _ => place (← labelOf t) : Asm Unit) s := rfl
  by_cases bound : t ∈ s.bound
  · simp only [steps, bound, ↓reduceIte]
    rfl
  · simp only [steps, bound, ↓reduceIte]
    split <;> rfl

theorem placeBinds {r : Assembler} {l : Label} (sound : s.Sound) (loose : t ∉ s.bound) (more : s.Extends r)
    (named : (t, l) ∈ r.labels) :
    ∃ s', place l { r with bound := r.bound ++ [t] } = .ok () s' ∧ s.Binds s' t := by
  have fits := more.sound sound
  have free := fits.unbound named (more.bound ▸ loose)
  have settable := Assembler.paddedSettable fits free
  have padded := r.extendsPadded
  refine ⟨_, ?_, more.binds sound (padded.binds fits
    (Assembler.bindsStand (padded.sound fits) settable (padded.labels.subset named)))⟩
  have same : Assembler.padded { r with bound := r.bound ++ [t] } =
      { r.padded with bound := r.padded.bound ++ [t] } := by
    rw [padded.bound]
    unfold Assembler.padded
    split <;> rfl
  rw [placeEq, same]
  exact setLabelOk ⟨settable.there, settable.free, settable.clear⟩

theorem bindNew (sound : s.Sound) (loose : t ∉ s.bound) : ∃ s', Asm.bind t s = .ok () s' ∧ s.Binds s' t := by
  rw [bindEq, if_neg loose]
  split
  · exact ⟨_, rfl, Assembler.bindsShared sound (by assumption) (by assumption)⟩
  · -- the label is the one that the target has, or a new one
    have labelled : ∃ l r, labelOf t { s with bound := s.bound ++ [t] } = .ok l { r with bound := r.bound ++ [t] } ∧
        s.Extends r ∧ (t, l) ∈ r.labels := by
      rw [labelOfEq]
      split
      · rename_i l found
        obtain ⟨before, after, same, -⟩ := List.lookup_eq_some_iff.mp found
        exact ⟨l, s, rfl, .refl s, same ▸ List.mem_append_right _ List.mem_cons_self⟩
      · rename_i found
        exact ⟨_, s.name t, rfl, Assembler.extendsName found, List.mem_append_right _ List.mem_cons_self⟩
    obtain ⟨l, r, found, more, named⟩ := labelled
    obtain ⟨s', placed, binds⟩ := placeBinds sound loose more named
    exact ⟨s', bindOk.mpr ⟨l, _, found, placed⟩, binds⟩

end Asm

/-! Runs. -/

variable {σ : Type} {lender : ScratchSource σ} {m : Emission σ} {t : CodeTarget}

theorem carryAgain (bound : t ∈ m.assembler.bound) :
    emit lender (.bind t) m = .error (.emission (.boundTwice t)) m := by
  change Asm.lift (Asm.bind t) m = _
  rw [Asm.lift, Asm.bindEq, if_pos bound]

theorem carryNew (lender : ScratchSource σ) (sound : m.assembler.Sound) (loose : t ∉ m.assembler.bound) :
    emit lender (.bind t) m = .ok () (carryOut lender (.bind t) m) ∧
      m.assembler.Binds (carryOut lender (.bind t) m).assembler t := by
  obtain ⟨s, bound, binds⟩ := Asm.bindNew sound loose
  have ran : emit lender (.bind t) m = .ok () { m with assembler := s } := liftOk.mpr ⟨s, bound, rfl⟩
  rw [carryOut, ran]
  exact ⟨rfl, binds⟩

theorem carryOutGrows (lender : ScratchSource σ) (q : Request) (sound : m.assembler.Sound) :
    m.assembler.Grows (carryOut lender q m).assembler ∧
      ∀ t, t ∈ (carryOut lender q m).assembler.bound ↔ t ∈ m.assembler.bound ∨ .bind t = q := by
  by_cases binding : ∃ t, q = .bind t
  · obtain ⟨t, rfl⟩ := binding
    by_cases bound : t ∈ m.assembler.bound
    · have same : carryOut lender (.bind t) m = m := by
        rw [carryOut, carryAgain bound]
      rw [same]
      refine ⟨(Assembler.Extends.refl _).grows sound, fun u => ⟨.inl, ?_⟩⟩
      rintro (before | same)
      · exact before
      · cases same
        exact bound
    · have binds := (carryNew lender sound bound).2
      refine ⟨binds.toGrows, fun u => ?_⟩
      rw [binds.bound, List.mem_append, List.mem_singleton]
      simp
  · have unbound : ∀ t, q ≠ .bind t := fun t same => binding ⟨t, same⟩
    have leads := (Alike.emit q unbound : Alike lender lender _ _).leads
    have more : m.assembler.Extends (carryOut lender q m).assembler := by
      unfold carryOut
      split
      · exact leads.holds (by assumption) sound
      · exact leads.fails (by assumption) sound
    refine ⟨more.grows sound, fun t => ?_⟩
    rw [more.bound]
    exact (or_iff_left fun same => unbound t same.symm).symm

theorem carryAllGrows (lender : ScratchSource σ) (qs : List Request) (sound : m.assembler.Sound) :
    m.assembler.Grows (carryAll lender qs m).assembler ∧
      ∀ t, t ∈ (carryAll lender qs m).assembler.bound ↔ t ∈ m.assembler.bound ∨ .bind t ∈ qs := by
  induction qs generalizing m with
  | nil => exact ⟨(Assembler.Extends.refl _).grows sound, fun t => by simp [carryAll]⟩
  | cons q rest ih =>
    obtain ⟨grows, bound⟩ := carryOutGrows lender q sound
    obtain ⟨further, later⟩ := ih grows.sound
    refine ⟨grows.trans further, fun t => (later t).trans ?_⟩
    rw [bound, or_assoc, List.mem_cons]

/-! The finished code. -/

namespace Assembler

variable {a : Assembler} {code : MachineCode} {i : Nat}

theorem closedCode (sound : a.Sound) :
    a.code.toList <+: a.closed.code.toList ∧ ∀ {l i}, a.StandsAt l i → i < a.closed.code.size := by
  unfold closed
  split
  · refine ⟨⟨[.plain .int3], by simp⟩, fun stands => ?_⟩
    rw [Array.size_push]
    exact Nat.lt_succ_of_le (sound.inside stands)
  · rename_i clear
    refine ⟨List.prefix_rfl, fun {l i} stands => Nat.lt_of_le_of_ne (sound.inside stands) ?_⟩
    rintro rfl
    exact clear (sound.waits.mp stands ▸ rfl)

theorem standsPosition {l : Label} (stands : a.StandsAt l i) : a.places.position l = i := by
  rw [LabelMap.position, Array.getD_eq_getD_getElem?, stands]
  rfl

theorem finishOk (ok : a.finish = .ok code) :
    (∀ {t l}, (t, l) ∈ a.labels → t ∈ a.bound) ∧
      ∃ slots pieces, ∃ target : Slot → Nat, a.closed.listing = .ok slots ∧
        slots.mapM (fun s => s.bytes (target s)) = .ok pieces ∧ code.bytes = pieces.flatten ∧
        code.targets = a.labels.map fun (t, l) => (t, (slots.toArray.getD (a.places.position l) default).address) := by
  have same : a.closed.places = a.places ∧ a.closed.labels = a.labels := by
    unfold closed
    split <;> exact ⟨rfl, rfl⟩
  unfold finish at ok
  split at ok
  · cases ok
  · rename_i found
    obtain ⟨slots, listed, ok⟩ := Results.bindOk ok
    obtain ⟨pieces, encoded, ok⟩ := Results.bindOk ok
    cases ok
    refine ⟨fun {t l} named => ?_, slots, pieces, _, listed, encoded, rfl, ?_⟩
    · simpa using List.find?_eq_none.mp found (t, l) named
    · rw [same.1, same.2]

def Encodes (i : Instruction) (piece : List UInt8) : Prop :=
  ∃ (s : Slot) (target : Nat), s.instruction = i ∧ s.bytes target = .ok piece

theorem finishPieces (sound : a.Sound) (ok : a.finish = .ok code) :
    ∃ pieces, code.bytes = pieces.flatten ∧ List.Forall₂ Encodes a.closed.code.toList pieces ∧
      code.targets.map Prod.fst = a.labels.map Prod.fst ∧
      (∀ t, t ∈ code.targets.map Prod.fst ↔ t ∈ a.bound) ∧
      ∀ {t i}, a.Lands t i → i < pieces.length ∧ (t, ((pieces.take i).flatten).length) ∈ code.targets := by
  obtain ⟨named, slots, pieces, target, listed, encoded, bytes, targets⟩ := finishOk ok
  have laid := layoutLays listed
  have rows := Results.mapMOk encoded
  have keys : code.targets.map Prod.fst = a.labels.map Prod.fst := by
    rw [targets, List.map_map]
    rfl
  have each : List.Forall₂ Encodes a.closed.code.toList pieces := by
    rw [← laid.instructions, List.forall₂_map_left_iff]
    exact rows.imp fun s piece ok => ⟨s, target s, rfl, ok⟩
  refine ⟨pieces, bytes, each, keys, fun t => ?_, fun {t i} ⟨l, labelled, stands⟩ => ?_⟩
  · rw [keys, List.mem_map]
    refine ⟨fun ⟨⟨u, l⟩, member, same⟩ => same ▸ named member, fun member => ?_⟩
    obtain ⟨l, i, labelled, -⟩ := sound.bound member
    exact ⟨(t, l), labelled, rfl⟩
  · have inside : i < a.closed.code.toList.length := (closedCode sound).2 stands
    refine ⟨each.length_eq ▸ inside, ?_⟩
    rw [← laidAddress laid encoded inside, ← standsPosition stands, targets]
    exact List.mem_map.mpr ⟨(t, l), labelled, rfl⟩

end Assembler

/-! Requests and targets. -/

def assembled (lender : ScratchSource σ) (l : σ) (tailCalls : Bool) (qs : List Request) : Assembler :=
  (carryAll lender qs ⟨{ tailCalls }, l⟩).assembler

structure BindsAfter (qs before : List Request) (t : CodeTarget) : Prop where
  called : before ++ [.bind t] <+: qs
  first : .bind t ∉ before

/-- Finished code, as one piece for each instruction, reports the targets that were bound. Each is where the first
instruction begins that was emitted after the target was bound, and they come in the order in which they were bound. -/
structure Resolves (run : List Request → Assembler) (qs : List Request) (code : MachineCode)
    (pieces : List (List UInt8)) : Prop where
  bytes : code.bytes = pieces.flatten
  instructions : List.Forall₂ Assembler.Encodes (run qs).closed.code.toList pieces
  once : (code.targets.map Prod.fst).Nodup
  targets : ∀ t, t ∈ code.targets.map Prod.fst ↔ .bind t ∈ qs
  next : ∀ {before t}, BindsAfter qs before t →
    let emitted := (run (before ++ [.bind t])).code.toList
    emitted <+: (run qs).closed.code.toList ∧ emitted.length < pieces.length ∧
      (t, ((pieces.take emitted.length).flatten).length) ∈ code.targets
  order : ∀ {before later t u m n}, BindsAfter qs before t → BindsAfter qs later u → before.length ≤ later.length →
    (t, m) ∈ code.targets → (u, n) ∈ code.targets → m ≤ n

variable {l : σ} {tailCalls : Bool} {qs before later : List Request} {u : CodeTarget}

theorem emptySound : ({ tailCalls } : Assembler).Sound := by
  refine ⟨fun stands => ?_, ?_, List.nodup_nil, nofun, nofun, nofun, nofun⟩
  · cases stands
  · exact ⟨nofun, nofun⟩

theorem assembledSound : (assembled lender l tailCalls qs).Sound :=
  (@carryAllGrows _ ⟨{ tailCalls }, l⟩ lender qs emptySound).1.sound

theorem assembledGrows (starts : before <+: qs) :
    (assembled lender l tailCalls before).Grows (assembled lender l tailCalls qs) := by
  obtain ⟨rest, rfl⟩ := starts
  rw [assembled, assembled, carryAllAppend]
  exact (carryAllGrows lender rest assembledSound).1

theorem assembledBound : t ∈ (assembled lender l tailCalls qs).bound ↔ .bind t ∈ qs := by
  have bound := (@carryAllGrows _ ⟨{ tailCalls }, l⟩ lender qs emptySound).2 t
  exact bound.trans (or_iff_right List.not_mem_nil)

theorem assembledLands (binds : BindsAfter qs before t) :
    (assembled lender l tailCalls qs).Lands t (assembled lender l tailCalls (before ++ [.bind t])).code.size := by
  refine (assembledGrows binds.called).lands ?_
  have loose : t ∉ (assembled lender l tailCalls before).bound := fun bound => binds.first (assembledBound.mp bound)
  rw [assembled, carryAllAppend]
  exact (carryNew lender assembledSound loose).2.lands

theorem assembledResolves {code : MachineCode} (ok : (assembled lender l tailCalls qs).finish = .ok code) :
    ∃ pieces, Resolves (assembled lender l tailCalls) qs code pieces := by
  have sound := (assembledSound : (assembled lender l tailCalls qs).Sound)
  obtain ⟨pieces, bytes, instructions, keys, targets, resolves⟩ := Assembler.finishPieces sound ok
  have once : (code.targets.map Prod.fst).Nodup := keys ▸ sound.once
  refine ⟨pieces, bytes, instructions, once, fun t => (targets t).trans assembledBound, fun {before t} binds => ?_,
    fun {before later t u m n} first second order here there => ?_⟩
  · exact ⟨(assembledGrows binds.called).code.trans (Assembler.closedCode sound).1, resolves (assembledLands binds)⟩
  · -- what the requests up to one target emit, those up to a later one emit too
    have starts : before ++ [.bind t] <+: later ++ [.bind u] :=
      List.prefix_of_prefix_length_le first.called second.called (by simpa using order)
    have grows : (assembled lender l tailCalls _).Grows (assembled lender l tailCalls _) := assembledGrows starts
    have shorter := grows.code.length_le
    obtain ⟨between, cut⟩ := List.take_isPrefix_take (l := pieces).mpr (.inl shorter)
    have same {t i o} (at_ : (assembled lender l tailCalls qs).Lands t i) (reported : (t, o) ∈ code.targets) :
        o = ((pieces.take i).flatten).length :=
      (Prod.mk.inj (List.inj_on_of_nodup_map once reported (resolves at_).2 rfl)).2
    rw [same (assembledLands first) here, same (assembledLands second) there, ← Array.length_toList,
      ← Array.length_toList, ← cut, List.flatten_append, List.length_append]
    exact Nat.le_add_right ..

/-- A target can be bound unless it was bound before, and finished code reports each target that was bound where the
next instruction begins. -/
theorem targetsResolve (lender : ScratchSource σ) (l : σ) (tailCalls : Bool) (qs : List Request) :
    (∀ t, (∃ e m, emit lender (.bind t) (carryAll lender qs ⟨{ tailCalls }, l⟩) = .error e m) ↔ .bind t ∈ qs) ∧
    ∀ code, (assembled lender l tailCalls qs).finish = .ok code →
      ∃ pieces, Resolves (assembled lender l tailCalls) qs code pieces := by
  refine ⟨fun t => ⟨fun ⟨e, m, failed⟩ => ?_, fun member => ?_⟩, fun code ok => assembledResolves ok⟩
  · by_contra new
    have loose : t ∉ (assembled lender l tailCalls qs).bound := fun bound => new (assembledBound.mp bound)
    cases (carryNew lender assembledSound loose).1.symm.trans failed
  · exact ⟨_, _, carryAgain (assembledBound.mpr member)⟩

/-- A jump forward over a target, to one bound at the same position, and a target at the end. -/
def jumpForward : List Request :=
  [.unary .jump 8 (.constant (.label (.ip 1))), .bind (.ip 0), .bind (.ip 1), .nullary .ret, .bind (.ip 2)]

/-- The code of `jumpForward`: a no-operation stands between the first two targets, and a trap behind the last. -/
def jumpedForward : MachineCode :=
  { bytes := [0xEB, 1, 0x90, 0xC3, 0xCC], targets := [(.ip 1, 3), (.ip 0, 2), (.ip 2, 4)], patches := [] }

theorem jumpForwardResolves :
    (assembled .pool [] false jumpForward).finish = .ok jumpedForward ∧
      ∃ pieces, Resolves (assembled .pool [] false) jumpForward jumpedForward pieces := by
  have finished : (assembled .pool [] false jumpForward).finish = .ok jumpedForward := by with_unfolding_all decide
  exact ⟨finished, (targetsResolve .pool [] false jumpForward).2 jumpedForward finished⟩

end Lowering.X64
