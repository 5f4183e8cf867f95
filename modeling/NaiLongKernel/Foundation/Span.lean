import Mathlib.Data.BitVec
import Mathlib.Tactic

/-!
# Runs of addresses

Addresses are words of a fixed width, and a run of them starts somewhere and goes up, with
wrap-around at the end of the address space. A store maps addresses to values and keeps a
list of the addresses that were written.
-/
namespace NaiLongKernel.Foundation

variable {w : ℕ} {β : Type}

/-- The address `i` places after `p`. -/
def offset (p : BitVec w) (i : ℕ) : BitVec w := p + BitVec.ofNat w i

@[simp] theorem offset_zero (p : BitVec w) : offset p 0 = p := by simp [offset]

theorem offset_succ (p : BitVec w) (i : ℕ) : offset p (i+1) = offset (p + 1) i := by
  simp only [offset, BitVec.ofNat_add]
  ac_rfl

theorem offset_add_one (p : BitVec w) (i : ℕ) : offset p (i+1) = offset p i + 1 := by
  simp only [offset, BitVec.ofNat_add]
  ac_rfl

theorem offset_eq_sub_one {p q : BitVec w} {i : ℕ} : offset p i = q - 1 ↔ offset p (i+1) = q := by
  rw [offset_add_one]
  constructor
  · intro h
    rw [h, BitVec.sub_add_cancel]
  · intro h
    rw [← h, BitVec.add_sub_cancel]

theorem offset_offset (p : BitVec w) (i j : ℕ) : offset (offset p i) j = offset p (i+j) := by
  simp only [offset, BitVec.ofNat_add, BitVec.add_assoc]

theorem offset_toNat (p : BitVec w) (n : BitVec w) : offset p n.toNat = p + n := by
  simp [offset]

theorem toNat_offset (p : BitVec w) (i : ℕ) : (offset p i).toNat = (p.toNat + i) % 2 ^ w := by
  simp [offset]

theorem toNat_offset_of_lt {p : BitVec w} {i : ℕ} (h : p.toNat + i < 2 ^ w) :
    (offset p i).toNat = p.toNat + i := by rw [toNat_offset, Nat.mod_eq_of_lt h]

theorem offset_inj (p : BitVec w) {i j : ℕ} (hi : i < 2 ^ w) (hj : j < 2 ^ w) :
    offset p i = offset p j ↔ i = j := by
  constructor
  · intro h
    have hword : BitVec.ofNat w i = BitVec.ofNat w j := (BitVec.add_right_inj p).mp h
    have hnat := congrArg BitVec.toNat hword
    rwa [BitVec.toNat_ofNat, BitVec.toNat_ofNat, Nat.mod_eq_of_lt hi, Nat.mod_eq_of_lt hj] at hnat
  · rintro rfl
    rfl

/-- The run of `n` addresses from `p` on. -/
def span (p : BitVec w) (n : ℕ) : List (BitVec w) := (List.range n).map (offset p)

theorem span_succ (p : BitVec w) (n : ℕ) : span p (n+1) = p :: span (p + 1) n := by
  simp only [span, List.range_succ_eq_map, List.map_cons, List.map_map, offset_zero]
  congr 1
  apply List.map_congr_left
  intro i _
  exact offset_succ p i

theorem span_add (p : BitVec w) (m n : ℕ) : span p (m+n) = span p m ++ span (offset p m) n := by
  simp only [span, List.range_add, List.map_append, List.map_map]
  congr 1
  apply List.map_congr_left
  intro i _
  exact (offset_offset p m i).symm

/-- A memory, with the addresses that were written, latest first. -/
structure Store (w : ℕ) (β : Type) where
  val : BitVec w → β
  writes : List (BitVec w) := []

def Store.write (a : BitVec w) (b : β) (m : Store w β) : Store w β :=
  ⟨Function.update m.val a b, a :: m.writes⟩

@[simp] theorem Store.val_write (a : BitVec w) (b : β) (m : Store w β) :
    (m.write a b).val = Function.update m.val a b := rfl

@[simp] theorem Store.writes_write (a : BitVec w) (b : β) (m : Store w β) :
    (m.write a b).writes = a :: m.writes := rfl

end NaiLongKernel.Foundation
