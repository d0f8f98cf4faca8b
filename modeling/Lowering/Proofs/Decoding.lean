import Lowering.FrameMap.Table
import Mathlib.Data.Int.ModEq
import Mathlib.Tactic.Ring
/-!
Reading the bytes of a frame-map table back.

Numbers take four bytes each. A list stands behind its length, except for the last list of a table,
which goes on to the end of the bytes. A reader takes what it understands off the front; it recovers
what was written if it takes exactly that and leaves the rest. So readers of parts make up a reader of
the whole, and two tables with the same bytes are the same table.
-/
namespace Lowering

/-! Numbers. -/

theorem littleEndianLength (n : Nat) (x : Int) : (littleEndian n x).length = n := by
  induction n generalizing x with
  | zero => rfl
  | succ n ih => simp only [littleEndian, List.length_cons, ih]

theorem ofLittleEndianOf (n : Nat) (x : Int) :
    (ofLittleEndian (littleEndian n x) : Int) = x % 256 ^ n := by
  induction n generalizing x with
  | zero => simp [littleEndian, ofLittleEndian]
  | succ n ih =>
    have digit : ((UInt8.ofNat (unsigned 8 x)).toNat : Int) = x % 256 := by
      have whole : (unsigned 8 x : Int) = x % 256 := Int.toNat_of_nonneg (Int.emod_nonneg x (by decide))
      rw [UInt8.toNat_ofNat', Nat.mod_eq_of_lt (by omega), whole]
    have positive : (0 : Int) < 256 ^ n := Int.pow_pos (by decide)
    have low := Int.emod_nonneg (x / 256) positive.ne'
    have high := Int.emod_lt_of_pos (x / 256) positive
    have split : x % 256 + 256 * (x / 256 % 256 ^ n) + 256 ^ (n + 1) * (x / 256 / 256 ^ n) = x := by
      calc _ = 256 * (256 ^ n * (x / 256 / 256 ^ n) + x / 256 % 256 ^ n) + x % 256 := by ring
        _ = x := by rw [Int.mul_ediv_add_emod, Int.mul_ediv_add_emod]
    have unique := (Int.ediv_emod_unique (a := x) (b := 256 ^ (n + 1)) (q := x / 256 / 256 ^ n)
      (Int.pow_pos (by decide))).mpr ⟨split, by omega, by rw [pow_succ]; omega⟩
    rw [littleEndian, ofLittleEndian]
    push_cast
    rw [digit, ih, unique.2]

/-! What can be written down. -/

def FrameMapTable.Numbered (r : Option UInt32) : Prop := ∀ n ∈ r, n.toNat < 2 ^ 32 - 1

instance : (r : Option UInt32) → Decidable (FrameMapTable.Numbered r)
  | none => isTrue fun _ member => nomatch member
  | some n => decidable_of_iff (n.toNat < 2 ^ 32 - 1) (by simp [FrameMapTable.Numbered])

/-- The lists are short enough for their lengths to be written down, and references leave room for being
counted from one. -/
def FrameMapTable.Encodable : FrameMapTable → Prop
  | .flat t => t.offsets.length < 2 ^ 32
  | .paths t =>
    t.entries.length < 2 ^ 32 ∧ t.bits.length < 2 ^ 32 ∧ (∀ e ∈ t.entries, Numbered e.path) ∧
      ∀ r ∈ t.records, r.returnAddresses.length < 2 ^ 32 ∧ Numbered r.next

instance : (t : FrameMapTable) → Decidable t.Encodable
  | .flat t => inferInstanceAs (Decidable (t.offsets.length < 2 ^ 32))
  | .paths t => inferInstanceAs (Decidable (_ ∧ _ ∧ (∀ e ∈ t.entries, _) ∧ ∀ r ∈ t.records, _))

/-! Readers. -/

abbrev ByteReader (α : Type) := StateT (List UInt8) Option α

namespace ByteReader

variable {α β : Type}

def Recovers (read : ByteReader α) (write : α → List UInt8) (a : α) : Prop :=
  ∀ rest, read.run (write a ++ rest) = some (a, rest)

theorem Recovers.bind {read : ByteReader α} {write : α → List UInt8} {a : α}
    (recovers : read.Recovers write a) (next : α → ByteReader β) (rest : List UInt8) :
    (read >>= next).run (write a ++ rest) = (next a).run rest := by
  rw [StateT.run_bind, recovers rest]
  rfl

def word : ByteReader Nat
  | a :: b :: c :: d :: rest => some (ofLittleEndian [a, b, c, d], rest)
  | _ => none

def number : ByteReader UInt32 := return UInt32.ofNat (← word)

def offset : ByteReader Int32 := return Int32.ofInt (← word)

def reference : ByteReader (Option UInt32) := do
  match ← word with
  | 0 => return none
  | n + 1 => return some (UInt32.ofNat n)

def times (read : ByteReader α) : Nat → ByteReader (List α)
  | 0 => return []
  | n + 1 => do
    let a ← read
    return a :: (← times read n)

def toEnd (read : ByteReader α) : Nat → ByteReader (List α)
  | 0 => return []
  | fuel + 1 => do
    if (← get).isEmpty then return []
    let a ← read
    return a :: (← toEnd read fuel)

def entry : ByteReader TableEntry := do
  let at_ ← offset
  let base ← number
  return ⟨at_, base, ← reference⟩

def record : ByteReader PathRecord := do
  let stackIndex ← number
  let count ← word
  let next ← reference
  return ⟨stackIndex, ← times offset count, next⟩

def flatTable : ByteReader FlatTable := do
  let mapSize ← number
  let offsets ← times offset (← word)
  return ⟨mapSize, offsets, ← toEnd number (← get).length⟩

def pathTable : ByteReader PathTable := do
  let mapSize ← number
  let entries ← times entry (← word)
  let bits ← times number (← word)
  return ⟨mapSize, entries, bits, ← toEnd record (← get).length⟩

def table : ByteReader FrameMapTable := do
  match ← word with
  | 0 => return .flat (← flatTable)
  | 1 => return .paths (← pathTable)
  | _ => failure

theorem wordReads {n : Nat} {x : Int} (same : x % 256 ^ 4 = n) (rest : List UInt8) :
    word.run (littleEndian 4 x ++ rest) = some (n, rest) := by
  have number := ofLittleEndianOf 4 x
  simp only [littleEndian] at number ⊢
  have digits : _ = n := Int.ofNat_inj.mp (number.trans same)
  exact congrArg (fun n => some (n, rest)) digits

theorem wordRecovers {n : Nat} (small : n < 2 ^ 32) : word.Recovers FrameMapTable.word n :=
  wordReads (by omega)

theorem numberRecovers (n : UInt32) : number.Recovers (FrameMapTable.word ·.toNat) n := by
  intro rest
  rw [number, (wordRecovers n.toNat_lt).bind, UInt32.ofNat_toNat]
  rfl

theorem offsetRecovers (x : Int32) : offset.Recovers FrameMapTable.offsetWord x := by
  intro rest
  obtain ⟨n, same⟩ := Int.eq_ofNat_of_zero_le (Int.emod_nonneg x.toInt (b := 256 ^ 4) (by decide))
  have back : Int32.ofInt n = x := by
    rw [Int32.ofInt_eq_iff_bmod_eq_toInt, ← same]
    exact (Int.emod_bmod ..).trans x.toInt_bmod
  rw [FrameMapTable.offsetWord, offset, StateT.run_bind, wordReads same]
  exact congrArg (fun x => some (x, rest)) back

theorem referenceRecovers {r : Option UInt32} (numbered : FrameMapTable.Numbered r) :
    reference.Recovers FrameMapTable.reference r := by
  intro rest
  cases r with
  | none => rw [FrameMapTable.reference, reference, (wordRecovers (by decide)).bind]; rfl
  | some n =>
    have small : n.toNat + 1 < 2 ^ 32 := by
      have := numbered n rfl
      omega
    rw [FrameMapTable.reference, reference, (wordRecovers small).bind]
    simp only [UInt32.ofNat_toNat]
    rfl

theorem timesRecovers {read : ByteReader α} {write : α → List UInt8} {xs : List α}
    (each : ∀ x ∈ xs, read.Recovers write x) : (read.times xs.length).Recovers (List.flatMap write) xs := by
  induction xs with
  | nil => exact fun rest => rfl
  | cons x xs ih =>
    intro rest
    have later := ih fun y member => each y (List.mem_cons_of_mem _ member)
    rw [List.flatMap_cons, List.append_assoc, List.length_cons, times,
      (each x List.mem_cons_self).bind, later.bind]
    rfl

theorem toEndRecovers {read : ByteReader α} {write : α → List UInt8} {xs : List α}
    (each : ∀ x ∈ xs, read.Recovers write x) (shows : ∀ x ∈ xs, 0 < (write x).length) {fuel : Nat}
    (enough : (xs.flatMap write).length ≤ fuel) :
    (read.toEnd fuel).run (xs.flatMap write) = some (xs, []) := by
  induction xs generalizing fuel with
  | nil => cases fuel <;> rfl
  | cons x xs ih =>
    have first := shows x List.mem_cons_self
    rw [List.flatMap_cons, List.length_append] at enough
    obtain ⟨fuel, rfl⟩ : ∃ k, fuel = k + 1 := ⟨fuel - 1, by omega⟩
    have later := ih (fun y member => each y (List.mem_cons_of_mem _ member))
      (fun y member => shows y (List.mem_cons_of_mem _ member)) (by omega : _ ≤ fuel)
    have more : (write x ++ xs.flatMap write).isEmpty = false := by
      simp [List.ne_nil_of_length_pos first]
    rw [List.flatMap_cons, toEnd, StateT.run_bind, StateT.run_get, pure_bind, more, if_neg Bool.false_ne_true,
      (each x List.mem_cons_self).bind, StateT.run_bind, later]
    rfl

theorem entryRecovers {e : TableEntry} (numbered : FrameMapTable.Numbered e.path) :
    entry.Recovers FrameMapTable.encodeEntry e := by
  intro rest
  rw [FrameMapTable.encodeEntry, List.append_assoc, List.append_assoc, entry, (offsetRecovers _).bind,
    (numberRecovers _).bind, (referenceRecovers numbered).bind]
  rfl

theorem recordRecovers {r : PathRecord} (short : r.returnAddresses.length < 2 ^ 32)
    (numbered : FrameMapTable.Numbered r.next) : record.Recovers FrameMapTable.encodeRecord r := by
  intro rest
  simp only [FrameMapTable.encodeRecord, List.append_assoc]
  rw [record, (numberRecovers _).bind, (wordRecovers short).bind, (referenceRecovers numbered).bind,
    (timesRecovers fun x _ => offsetRecovers x).bind]
  rfl

theorem flatTableReads {t : FlatTable} (short : t.offsets.length < 2 ^ 32) :
    flatTable.run (FrameMapTable.word t.mapSize.toNat ++ (FrameMapTable.word t.offsets.length ++
      (t.offsets.flatMap FrameMapTable.offsetWord ++ t.bits.flatMap (FrameMapTable.word ·.toNat)))) =
      some (t, []) := by
  have bits : ∀ w ∈ t.bits, 0 < (FrameMapTable.word w.toNat).length := fun w _ => by
    simp [FrameMapTable.word, littleEndianLength]
  rw [flatTable, (numberRecovers _).bind, (wordRecovers short).bind,
    (timesRecovers fun x _ => offsetRecovers x).bind, StateT.run_bind, StateT.run_get,
    pure_bind, StateT.run_bind, toEndRecovers (fun n _ => numberRecovers n) bits le_rfl]
  rfl

theorem pathTableReads {t : PathTable} (encodable : (FrameMapTable.paths t).Encodable) :
    pathTable.run (FrameMapTable.word t.mapSize.toNat ++ (FrameMapTable.word t.entries.length ++
      (t.entries.flatMap FrameMapTable.encodeEntry ++ (FrameMapTable.word t.bits.length ++
        (t.bits.flatMap (FrameMapTable.word ·.toNat) ++
          t.records.flatMap FrameMapTable.encodeRecord))))) = some (t, []) := by
  obtain ⟨short, short', entries, records⟩ := encodable
  have shows : ∀ r ∈ t.records, 0 < (FrameMapTable.encodeRecord r).length := fun r _ => by
    simp [FrameMapTable.encodeRecord, FrameMapTable.word, littleEndianLength]
  rw [pathTable, (numberRecovers _).bind, (wordRecovers short).bind,
    (timesRecovers fun e member => entryRecovers (entries e member)).bind, (wordRecovers short').bind,
    (timesRecovers fun n _ => numberRecovers n).bind, StateT.run_bind, StateT.run_get,
    pure_bind, StateT.run_bind, toEndRecovers (fun r member => recordRecovers (records r member).1
    (records r member).2) shows le_rfl]
  rfl

end ByteReader

namespace FrameMapTable

def decode (bytes : List UInt8) : Option FrameMapTable := (ByteReader.table.run bytes).map (·.1)

theorem decodeEncode {t : FrameMapTable} (encodable : t.Encodable) : decode t.encode = some t := by
  cases t with
  | flat t =>
    simp only [decode, encode, List.append_assoc]
    rw [ByteReader.table, (ByteReader.wordRecovers (by decide)).bind]
    show ((ByteReader.flatTable >>= _ : ByteReader FrameMapTable).run _).map _ = _
    rw [StateT.run_bind, ByteReader.flatTableReads encodable]
    rfl
  | paths t =>
    simp only [decode, encode, List.append_assoc]
    rw [ByteReader.table, (ByteReader.wordRecovers (by decide)).bind]
    show ((ByteReader.pathTable >>= _ : ByteReader FrameMapTable).run _).map _ = _
    rw [StateT.run_bind, ByteReader.pathTableReads encodable]
    rfl

/- Tables with the same bytes are read back as the same table. -/
theorem encodingLosesNothing {t u : FrameMapTable} (encodable : t.Encodable) (encodable' : u.Encodable) :
    decode t.encode = some t ∧ (t.encode = u.encode → t = u) := by
  refine ⟨decodeEncode encodable, fun same => ?_⟩
  have back : some t = some u := by
    rw [← decodeEncode encodable, same, decodeEncode encodable']
  exact Option.some.inj back

def nested (outside : Option UInt32) : FrameMapTable :=
  .paths ⟨2, [⟨-4, 0, outside⟩, ⟨80, 2, some 1⟩], [645],
    [⟨1, [8, 48], none⟩, ⟨2, [20, 28], some 0⟩]⟩

/- No record and the first record are told apart. -/
theorem nestedIsRecovered : (nested none).Encodable ∧ (nested (some 0)).Encodable ∧
    decode (nested none).encode = some (nested none) ∧
    ((nested none).encode = (nested (some 0)).encode → nested none = nested (some 0)) := by
  have none : (nested none).Encodable := by decide
  have some : (nested (some 0)).Encodable := by decide
  exact ⟨none, some, encodingLosesNothing none some⟩

end FrameMapTable

end Lowering
