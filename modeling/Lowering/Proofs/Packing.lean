import Lowering.FrameMap.Build
import Mathlib.Algebra.GroupWithZero.Nat
import Mathlib.Data.List.Sort
/-!
Reading packed bitmaps and sorted offsets back.

Bits come out of their words as they went in, also where a bitmap starts in the middle of a word.
Halving finds every element of an ascending list. Where lists of offsets are combined in every way,
the place of a combination in lexicographic order is the number that its digits make in mixed radix,
a digit being the place of an offset in its list.
-/
namespace Lowering

open RootLog

section Bits

variable {bits : List Bool}

theorem bitsToNatBit (bits : List Bool) (i : Nat) :
    (bitsToNat bits).testBit i = bits.getD i false := by
  induction bits generalizing i with
  | nil => simp [bitsToNat]
  | cons b rest ih =>
    cases i with
    | zero => cases b <;> simp [bitsToNat, Nat.testBit_zero, Nat.add_mod]
    | succ i =>
      have half : (b.toNat + 2 * bitsToNat rest) / 2 = bitsToNat rest := by
        have := b.toNat_lt
        omega
      rw [Nat.testBit_succ, bitsToNat, half, ih, List.getD_cons_succ]

theorem bitsToNatSmall (bits : List Bool) : bitsToNat bits < 2 ^ bits.length := by
  induction bits with
  | nil => simp [bitsToNat]
  | cons b rest ih =>
    have := b.toNat_lt
    rw [bitsToNat, List.length_cons, Nat.pow_succ]
    omega

theorem packedBitPack (bits : List Bool) (i : Nat) :
    packedBit (packBits bits) i = bits.getD i false := by
  have split : 32 * (i / 32) + i % 32 = i := Nat.div_add_mod i 32
  have digit : i % 32 < 32 := Nat.mod_lt _ (by decide)
  by_cases inside : i / 32 < (bits.length + 31) / 32
  · have small : bitsToNat ((bits.drop (32 * (i / 32))).take 32) < 2 ^ 32 :=
      Nat.lt_of_lt_of_le (bitsToNatSmall _)
        (Nat.pow_le_pow_right (by decide) (List.length_take_le _ _))
    simp only [packedBit, packBits, List.getElem?_map, List.getElem?_range inside, Option.map_some,
      UInt32.toNat_ofNat', Nat.mod_eq_of_lt small, bitsToNatBit, List.getD_eq_getElem?_getD,
      List.getElem?_take_of_lt digit, List.getElem?_drop, split]
  · have beyond : bits.length ≤ i := by omega
    have past : (List.range ((bits.length + 31) / 32))[i / 32]? = none := by
      simp only [List.getElem?_eq_none_iff, List.length_range]
      omega
    simp [packedBit, packBits, past, beyond]

theorem blockAt {α : Type} {n : Nat} {blocks : List (List α)} (equal : ∀ b ∈ blocks, b.length = n)
    {i j : Nat} {b : List α} (block : blocks[i]? = some b) (inside : j < n) :
    blocks.flatten[i * n + j]? = b[j]? := by
  induction blocks generalizing i with
  | nil => simp at block
  | cons first rest ih =>
    have size : first.length = n := equal _ List.mem_cons_self
    cases i with
    | zero =>
      cases Option.some.inj block
      rw [List.flatten_cons, Nat.zero_mul, Nat.zero_add, List.getElem?_append_left (size ▸ inside)]
    | succ i =>
      have onward := ih (fun b member => equal b (List.mem_cons_of_mem _ member)) block
      have index : (i + 1) * n + j - n = i * n + j := by
        rw [Nat.succ_mul]
        omega
      have past : first.length ≤ (i + 1) * n + j := by
        rw [size, Nat.succ_mul]
        omega
      rw [List.flatten_cons, List.getElem?_append_right past, size, index, onward]

theorem blockLength {α : Type} {n : Nat} {blocks : List (List α)}
    (equal : ∀ b ∈ blocks, b.length = n) : blocks.flatten.length = blocks.length * n := by
  induction blocks with
  | nil => simp
  | cons first rest ih =>
    rw [List.flatten_cons, List.length_append, equal _ List.mem_cons_self,
      ih fun b member => equal b (List.mem_cons_of_mem _ member), List.length_cons, Nat.succ_mul,
      Nat.add_comm]

theorem unpackBlock {size : Nat} {maps : List (List Bool)} (equal : ∀ m ∈ maps, m.length = size)
    {i : Nat} {m : List Bool} (here : maps[i]? = some m) :
    unpackBits (packBits maps.flatten) (i * size) size = m := by
  have length : m.length = size := equal m (List.mem_of_getElem? here)
  refine List.ext_getElem (by simp [unpackBits, length]) fun j _ inside => ?_
  have at' := blockAt equal here (length ▸ inside)
  simp only [unpackBits, List.getElem_map, List.getElem_range, packedBitPack,
    List.getD_eq_getElem?_getD, at', List.getElem?_eq_getElem inside, Option.getD_some]

theorem packBitsLength (bits : List Bool) : bits.length ≤ 32 * (packBits bits).length := by
  simp only [packBits, List.length_map, List.length_range]
  omega

end Bits

section Search

variable {xs : List Int32} {x : Int32} {k : Nat}

theorem ascendingBefore (ascending : xs.Pairwise (· < ·)) {i j : Nat} {a b : Int32}
    (first : xs[i]? = some a) (second : xs[j]? = some b) (before : i < j) : a < b := by
  obtain ⟨_, rfl⟩ := List.getElem?_eq_some_iff.mp first
  obtain ⟨_, rfl⟩ := List.getElem?_eq_some_iff.mp second
  exact List.pairwise_iff_getElem.mp ascending _ _ _ _ before

theorem searchFromFinds (ascending : xs.Pairwise (· < ·)) (here : xs[k]? = some x) (fuel : Nat) :
    ∀ {base size : Nat}, size ≤ fuel → base ≤ k → k < base + size → base + size ≤ xs.length →
      searchFrom xs.toArray x fuel base size = k := by
  induction fuel with
  | zero =>
    intro base size enough low high _
    omega
  | succ fuel ih =>
    intro base size enough low high bound
    rw [searchFrom]
    split
    · omega
    · have middle : base + size / 2 < xs.length := by omega
      have value : xs[base + size / 2]? = some xs[base + size / 2] :=
        List.getElem?_eq_getElem middle
      have read : xs.toArray.getD (base + size / 2) 0 = xs[base + size / 2] := by
        simp [Array.getD_eq_getD_getElem?, value]
      simp only [read]
      split
      · rename_i above
        refine ih (by omega) low ?_ (by omega)
        by_contra far
        rcases Nat.lt_or_ge (base + size / 2) k with before | after
        · exact Int32.lt_asymm above (ascendingBefore ascending value here before)
        · have same : base + size / 2 = k := by omega
          rw [Option.some.inj (value.symm.trans (same ▸ here))] at above
          exact Int32.lt_irrefl above
      · rename_i upTo
        refine ih (by omega) ?_ (by omega) (by omega)
        by_contra far
        exact upTo (ascendingBefore ascending here value (by omega))

theorem sortedIndexFinds (ascending : xs.Pairwise (· < ·)) (here : xs[k]? = some x) :
    sortedIndex? xs x = some k := by
  have inside : k < xs.length := (List.getElem?_eq_some_iff.mp here).1
  have found := searchFromFinds ascending here xs.length (Nat.le_refl _) (Nat.zero_le k)
    (by omega) (by omega)
  rw [sortedIndex?, found]
  exact if_pos here

theorem sortedAscends {α : Type} {f : α → Int32} {ys : List α} (distinct : (ys.map f).Nodup) :
    ((ys.mergeSort fun a b => f a ≤ f b).map f).Pairwise (· < ·) := by
  have sorted : (ys.mergeSort fun a b => decide (f a ≤ f b)).Pairwise fun a b => decide (f a ≤ f b) = true :=
    List.pairwise_mergeSort (fun a b c => by simpa using Int32.le_trans) (fun a b => by simpa using Int32.le_total _ _) ys
  have different : ((ys.mergeSort fun a b => decide (f a ≤ f b)).map f).Nodup :=
    ((List.mergeSort_perm ys _).map f).nodup_iff.mpr distinct
  rw [List.Nodup, List.pairwise_map] at different
  rw [List.pairwise_map]
  exact (sorted.and different).imp fun both =>
    Int32.lt_of_le_of_ne (by simpa using both.1) both.2

end Search

section Keys

theorem keyLeTrans {a b c : List Int32} (first : keyLe a b) (second : keyLe b c) : keyLe a c := by
  induction a generalizing b c with
  | nil => rfl
  | cons x a ih =>
    cases b with
    | nil => simp [keyLe] at first
    | cons y b =>
      cases c with
      | nil => simp [keyLe] at second
      | cons z c =>
        simp only [keyLe] at first second ⊢
        split at first <;> split at second <;> split
        · exact ih first second
        · simp_all
        · simp_all
        · simp_all
        · simp_all
        · simp_all
        · rename_i same
          subst same
          exact absurd (of_decide_eq_true first) (Int32.lt_asymm (of_decide_eq_true second))
        · exact decide_eq_true (Int32.lt_trans (of_decide_eq_true first) (of_decide_eq_true second))

theorem keyLeTotal (a b : List Int32) : keyLe a b || keyLe b a := by
  induction a generalizing b with
  | nil => simp [keyLe]
  | cons x a ih =>
    cases b with
    | nil => simp [keyLe]
    | cons y b =>
      by_cases same : x = y
      · subst same
        simpa [keyLe] using ih b
      · rcases Int32.le_total x y with le | le
        · simp [keyLe, same, Int32.lt_of_le_of_ne le same]
        · simp [keyLe, same, Ne.symm same, Int32.lt_of_le_of_ne le (Ne.symm same)]

theorem keyLeAntisymm {a b : List Int32} (first : keyLe a b) (second : keyLe b a) : a = b := by
  induction a generalizing b with
  | nil =>
    cases b with
    | nil => rfl
    | cons y b => simp [keyLe] at second
  | cons x a ih =>
    cases b with
    | nil => simp [keyLe] at first
    | cons y b =>
      simp only [keyLe] at first second
      split at first
      · rename_i same
        subst same
        rw [if_pos rfl] at second
        rw [ih first second]
      · rename_i other
        rw [if_neg (Ne.symm other)] at second
        exact absurd (of_decide_eq_true first) (Int32.lt_asymm (of_decide_eq_true second))

theorem keyLeAppend (k a b : List Int32) : keyLe (k ++ a) (k ++ b) = keyLe a b := by
  induction k with
  | nil => rfl
  | cons x k ih => simpa [keyLe] using ih

theorem keyLeBefore {k m : List Int32} (le : keyLe k m) (other : k ≠ m)
    (length : k.length = m.length) (a b : List Int32) : keyLe (k ++ a) (m ++ b) := by
  induction k generalizing m with
  | nil => exact absurd (List.eq_nil_of_length_eq_zero length.symm).symm other
  | cons x k ih =>
    cases m with
    | nil => cases length
    | cons y m =>
      simp only [List.cons_append, keyLe] at le ⊢
      split at le
      · rename_i same
        subst same
        rw [if_pos rfl]
        exact ih le (fun same => other (same ▸ rfl)) (Nat.succ.inj length)
      · rename_i different
        rw [if_neg different]
        exact le

/-- All keys that take one offset of each list. The lists stand innermost first, and a key begins
with the outermost. -/
def keysOf : List (List Int32) → List (List Int32)
  | [] => [[]]
  | offsets :: outer => (keysOf outer).flatMap fun key => offsets.map fun o => key ++ [o]

theorem keysOfLength {lists : List (List Int32)} : ∀ key ∈ keysOf lists, key.length = lists.length := by
  induction lists with
  | nil => simp [keysOf]
  | cons offsets outer ih =>
    intro key member
    obtain ⟨k, old, taken⟩ := List.mem_flatMap.mp member
    obtain ⟨o, -, rfl⟩ := List.mem_map.mp taken
    rw [List.length_append, ih k old]
    rfl

theorem keysOfSorted {lists : List (List Int32)}
    (ascending : ∀ offsets ∈ lists, offsets.Pairwise (· < ·)) :
    (keysOf lists).Pairwise fun a b => keyLe a b ∧ a ≠ b := by
  induction lists with
  | nil => exact List.pairwise_singleton ..
  | cons offsets outer ih =>
    have sorted := ih fun os member => ascending os (List.mem_cons_of_mem _ member)
    refine List.pairwise_flatMap.mpr ⟨fun key _ => ?_, sorted.imp_of_mem fun {k m} old old' both => ?_⟩
    · rw [List.pairwise_map]
      refine (ascending offsets List.mem_cons_self).imp fun {a b} lt => ⟨?_, ?_⟩
      · rw [keyLeAppend]
        by_cases same : a = b
        · simp [keyLe, same]
        · simpa [keyLe, same] using lt
      · intro same
        cases List.append_cancel_left same
        exact Int32.lt_irrefl lt
    · intro x member y member'
      obtain ⟨a, -, rfl⟩ := List.mem_map.mp member
      obtain ⟨b, -, rfl⟩ := List.mem_map.mp member'
      have length := (keysOfLength k old).trans (keysOfLength m old').symm
      exact ⟨keyLeBefore both.1 both.2 length _ _, fun same => both.2 (List.append_inj_left same length)⟩

theorem keysOfMem {lists : List (List Int32)} {key : List Int32} :
    key.reverse ∈ keysOf lists ↔ List.Forall₂ (· ∈ ·) key lists := by
  induction lists generalizing key with
  | nil => simp [keysOf]
  | cons offsets outer ih =>
    constructor
    · intro member
      obtain ⟨k, old, taken⟩ := List.mem_flatMap.mp member
      obtain ⟨o, listed, same⟩ := List.mem_map.mp taken
      have whole : key = o :: k.reverse := by
        rw [← List.reverse_reverse key, ← same]
        simp
      rw [whole]
      exact .cons listed (ih.mp (by rwa [List.reverse_reverse]))
    · rintro (_ | ⟨listed, rest⟩)
      rw [List.reverse_cons]
      exact List.mem_flatMap.mpr ⟨_, ih.mpr rest, List.mem_map.mpr ⟨_, listed, rfl⟩⟩

theorem keysOfAt {offsets : List Int32} {outer : List (List Int32)} {key : List Int32} {o : Int32}
    {position number : Nat} (here : offsets[position]? = some o)
    (there : (keysOf outer)[number]? = some key) :
    (keysOf (offsets :: outer))[position + offsets.length * number]? = some (key ++ [o]) := by
  have inside : position < offsets.length := (List.getElem?_eq_some_iff.mp here).1
  have block : ((keysOf outer).map fun key => offsets.map fun o => key ++ [o])[number]? =
      some (offsets.map fun o => key ++ [o]) := by
    rw [List.getElem?_map, there]
    rfl
  have equal : ∀ b ∈ (keysOf outer).map fun key => offsets.map fun o => key ++ [o],
      b.length = offsets.length := by
    intro b member
    obtain ⟨k, -, rfl⟩ := List.mem_map.mp member
    exact List.length_map _
  rw [keysOf, List.flatMap_def, Nat.add_comm, Nat.mul_comm, blockAt equal block inside,
    List.getElem?_map, here]
  rfl

end Keys

end Lowering
