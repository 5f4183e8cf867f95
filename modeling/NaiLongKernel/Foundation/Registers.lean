import Mathlib.Data.BitVec
import Mathlib.Tactic

/-!
# Words of registers

A register holds bits or fields of equal width. A driver changes one of them by reading the
word, masking and writing it back; the lemmas here say what becomes of this field and of the
others. The last section is about sequences of writes: what was written last is read.
-/
namespace NaiLongKernel.Foundation

/-! ## Bits -/

section Bits

variable {n b i : ℕ} {word : BitVec n}

theorem getLsbD_one_shiftLeft (hb : b < n) : ((1#n <<< b).getLsbD i) = decide (i = b) := by
  rw [← BitVec.twoPow_eq, BitVec.getLsbD_twoPow]
  by_cases h : i = b
  · simp [h, hb]
  · simp [h, Ne.symm h]

theorem getLsbD_setBit (hb : b < n) :
    (word ||| 1#n <<< b).getLsbD i = (decide (i = b) || word.getLsbD i) := by
  rw [BitVec.getLsbD_or, getLsbD_one_shiftLeft hb, Bool.or_comm]

theorem getLsbD_clearBit (hb : b < n) :
    (word &&& ~~~(1#n <<< b)).getLsbD i = (!decide (i = b) && word.getLsbD i) := by
  by_cases hi : i < n
  · rw [BitVec.getLsbD_and, BitVec.getLsbD_not, getLsbD_one_shiftLeft hb, Bool.and_comm]
    simp [hi]
  · simp [BitVec.getLsbD_of_ge _ i (by omega : n ≤ i)]

end Bits

/-! ## Bits of an array of words -/

section Words

variable {n k i : ℕ} {words : ℕ → BitVec n}

/-- The bit with the number `i`, counted through all words. -/
def bitOf (words : ℕ → BitVec n) (i : ℕ) : Bool := (words (i / n)).getLsbD (i % n)

theorem mod_ne_of_div_eq {per i j : ℕ} (hne : i ≠ j) (h : i / per = j / per) :
    i % per ≠ j % per := by
  intro hmod
  apply hne
  rw [← Nat.div_add_mod i per, ← Nat.div_add_mod j per, h, hmod]

theorem bitOf_update_of_ne {word : BitVec n} {m : ℕ} (h : i / n ≠ m) :
    bitOf (Function.update words m word) i = bitOf words i := by
  rw [bitOf, Function.update_of_ne h, bitOf]

theorem bitOf_setBit (hn : 0 < n) :
    bitOf (Function.update words (k / n) (words (k / n) ||| 1#n <<< (k % n))) i =
      (decide (i = k) || bitOf words i) := by
  by_cases hword : i / n = k / n
  · rw [bitOf, hword, Function.update_self, getLsbD_setBit (Nat.mod_lt k hn), bitOf, hword]
    by_cases hi : i = k
    · simp [hi]
    · simp [hi, mod_ne_of_div_eq hi hword]
  · rw [bitOf_update_of_ne hword]
    have hi : i ≠ k := fun h => hword (by rw [h])
    simp [hi]

/-- Clearing a whole word clears one bit only if the others of the word were clear. -/
theorem clearWord_only_iff :
    (∀ i, bitOf (Function.update words (k / n) 0) i = (bitOf words i && decide (i ≠ k))) ↔
      ∀ i, i ≠ k → i / n = k / n → bitOf words i = false := by
  have hcleared : ∀ i, i / n = k / n → bitOf (Function.update words (k / n) 0) i = false := by
    intro i hword
    rw [bitOf, hword, Function.update_self]
    simp
  constructor
  · intro h i hne hword
    have hbit := h i
    rw [hcleared i hword] at hbit
    simpa [hne] using hbit.symm
  · intro h i
    by_cases hword : i / n = k / n
    · rw [hcleared i hword]
      by_cases hi : i = k
      · simp [hi]
      · simp [h i hi hword]
    · have hi : i ≠ k := fun he => hword (by rw [he])
      rw [bitOf_update_of_ne hword]
      simp [hi]

/-- A word of bits that was read, with one bit added, clears the whole word. -/
theorem and_not_or_self (x bit : BitVec n) : x &&& ~~~(x ||| bit) = 0 := by
  apply BitVec.eq_of_getLsbD_eq
  intro i hi
  cases hx : x.getLsbD i <;> simp [hx]

end Words

/-! ## Fields -/

section Fields

variable {n w slot slot' : ℕ} {word mask value : BitVec n}

/-- The field of width `w` that is the number `slot` of its word. -/
def field (w : ℕ) (word : BitVec n) (slot : ℕ) : BitVec w := word.extractLsb' (slot * w) w

/-- The word with the bits of `mask` cleared and those of `value` set, both moved to a field. -/
def patch (word mask value : BitVec n) (shift : ℕ) : BitVec n :=
  word &&& ~~~(mask <<< shift) ||| value <<< shift

theorem getLsbD_patch {shift i : ℕ} (hi : i < n) :
    (patch word mask value shift).getLsbD i =
      (word.getLsbD i && !(!decide (i < shift) && mask.getLsbD (i - shift)) ||
        !decide (i < shift) && value.getLsbD (i - shift)) := by
  simp only [patch, BitVec.getLsbD_or, BitVec.getLsbD_and, BitVec.getLsbD_not,
    BitVec.getLsbD_shiftLeft, hi, decide_true, Bool.true_and]

theorem field_patch_self (h : slot * w + w ≤ n) :
    field w (patch word mask value (slot * w)) slot =
      field w word slot &&& ~~~mask.setWidth w ||| value.setWidth w := by
  apply BitVec.eq_of_getLsbD_eq
  intro i hi
  have hlt : slot * w + i < n := by omega
  simp [field, getLsbD_patch hlt, hi]

theorem field_patch_of_ne (hmask : mask.toNat < 2 ^ w) (hvalue : value.toNat < 2 ^ w)
    (hne : slot' ≠ slot) (h : slot' * w + w ≤ n) :
    field w (patch word mask value (slot * w)) slot' = field w word slot' := by
  apply BitVec.eq_of_getLsbD_eq
  intro i hi
  have hlt : slot' * w + i < n := by omega
  have hzero : ∀ {v : BitVec n}, v.toNat < 2 ^ w →
      (!decide (slot' * w + i < slot * w) && v.getLsbD (slot' * w + i - slot * w)) = false := by
    intro v hv
    obtain hbelow | habove := lt_or_gt_of_ne hne
    · have hle : (slot' + 1) * w ≤ slot * w := Nat.mul_le_mul_right w hbelow
      have hin : slot' * w + i < slot * w := by
        rw [Nat.succ_mul] at hle
        omega
      simp [hin]
    · have hle : (slot + 1) * w ≤ slot' * w := Nat.mul_le_mul_right w habove
      have hout : w ≤ slot' * w + i - slot * w := by
        rw [Nat.succ_mul] at hle
        omega
      have hbit : v.getLsbD (slot' * w + i - slot * w) = false := by
        rw [← BitVec.testBit_toNat]
        exact Nat.testBit_lt_two_pow (lt_of_lt_of_le hv (Nat.pow_le_pow_right (by omega) hout))
      simp [hbit]
  simp [field, getLsbD_patch hlt, hi, hzero hmask, hzero hvalue]

end Fields

/-! ## Sequences of writes -/

section Latest

variable {α β σ : Type} {exec : σ → α → σ} {ops : List α}

/-- The value that was written last. -/
def latest (f : α → Option β) (ops : List α) : Option β := ops.reverse.findSome? f

theorem latest_append_singleton (f : α → Option β) (ops : List α) (a : α) :
    latest f (ops ++ [a]) = (f a).or (latest f ops) := by
  simp only [latest, List.reverse_append, List.reverse_singleton, List.singleton_append,
    List.findSome?_cons]
  cases f a <;> rfl

theorem latest_map {γ : Type} (f : α → Option β) (g : β → γ) (ops : List α) :
    latest (fun a => (f a).map g) ops = (latest f ops).map g :=
  (List.map_findSome? ..).symm

theorem eq_none_of_latest {f : α → Option β} (h : latest f ops = none) {a : α} (ha : a ∈ ops) :
    f a = none :=
  List.findSome?_eq_none_iff.mp h a (List.mem_reverse.mpr ha)

theorem exists_of_latest {f : α → Option β} {b : β} (h : latest f ops = some b) :
    ∃ a ∈ ops, f a = some b := by
  obtain ⟨a, ha, hb⟩ := List.exists_of_findSome?_eq_some h
  exact ⟨a, List.mem_reverse.mp ha, hb⟩

/-- An observation that each operation replaces or leaves alone shows the last write. -/
theorem observe_foldl {g : σ → β} {f : α → Option β}
    (h : ∀ a ∈ ops, ∀ s, g (exec s a) = (f a).getD (g s)) (s : σ) :
    g (ops.foldl exec s) = (latest f ops).getD (g s) := by
  induction ops using List.reverseRecOn with
  | nil => rfl
  | append_singleton ops a ih =>
    rw [List.foldl_append, List.foldl_cons, List.foldl_nil, h a (by simp),
      ih fun b hb => h b (by simp [hb]), latest_append_singleton]
    cases f a <;> rfl

theorem sticky_foldl {g : σ → Bool} {p : α → Bool}
    (h : ∀ a ∈ ops, ∀ s, g (exec s a) = (p a || g s)) (s : σ) :
    g (ops.foldl exec s) = (ops.any p || g s) := by
  induction ops using List.reverseRecOn with
  | nil => rfl
  | append_singleton ops a ih =>
    rw [List.foldl_append, List.foldl_cons, List.foldl_nil, h a (by simp),
      ih fun b hb => h b (by simp [hb]), List.any_append, List.any_cons, List.any_nil,
      Bool.or_false, ← Bool.or_assoc, Bool.or_comm (p a)]

end Latest

end NaiLongKernel.Foundation
