import NaiLongKernel.Foundation.Span

/-!
# Blocks of memory

The functions of `nk_string.c` that work on blocks. A `size_t` counts the turns of a loop;
pointers are 64 bits wide and move with wrap-around, as the pointers of the backward loop of
`memmove` do for an empty block.
-/
namespace NaiLongKernel.Libc

open Foundation

abbrev Byte := BitVec 8
abbrev Address := BitVec 64
abbrev Memory := Store 64 Byte

/-- `while (n--) *d++ = *s++`. -/
def copyUp : (n : ℕ) → (d s : Address) → Memory → Memory
  | 0, _, _, m => m
  | n+1, d, s, m => copyUp n (d + 1) (s + 1) (m.write d (m.val s))

/-- `while (n--) *lastd-- = *lasts--`. -/
def copyDown : (n : ℕ) → (lastd lasts : Address) → Memory → Memory
  | 0, _, _, m => m
  | n+1, lastd, lasts, m => copyDown n (lastd - 1) (lasts - 1) (m.write lastd (m.val lasts))

def memcpy (dest src : Address) (n : BitVec 64) (m : Memory) : Address × Memory :=
  (dest, copyUp n.toNat dest src m)

def memmove (dest src : Address) (n : BitVec 64) (m : Memory) : Address × Memory :=
  if dest < src then (dest, copyUp n.toNat dest src m)
  else (dest, copyDown n.toNat (dest + (n - 1)) (src + (n - 1)) m)

/-- `while (n-- > 0) *ptr++ = val`. -/
def fillUp (val : Byte) : (n : ℕ) → (ptr : Address) → Memory → Memory
  | 0, _, m => m
  | n+1, ptr, m => fillUp val n (ptr + 1) (m.write ptr val)

def memset (dest : Address) (val : BitVec 32) (n : BitVec 64) (m : Memory) : Address × Memory :=
  (dest, fillUp (val.setWidth 8) n.toNat dest m)

/-- The loop of `memcmp`. -/
def compareUp (m : Memory) : (n : ℕ) → (s1 s2 : Address) → ℤ
  | 0, _, _ => 0
  | n+1, s1, s2 =>
    if m.val s1 ≠ m.val s2 then (if m.val s1 < m.val s2 then -1 else 1)
    else compareUp m n (s1 + 1) (s2 + 1)

def memcmp (str1 str2 : Address) (n : BitVec 64) (m : Memory) : ℤ := compareUp m n.toNat str1 str2

section Copying

variable {n : ℕ} {d s x : Address}

theorem copyUp_outside (m : Memory) (hx : ∀ i < n, x ≠ offset d i) :
    (copyUp n d s m).val x = m.val x := by
  induction n generalizing d s m with
  | zero => rfl
  | succ n ih =>
    rw [copyUp, ih]
    · have hxd : x ≠ d := by simpa using hx 0 (Nat.succ_pos n)
      simp [hxd]
    · intro i hi
      rw [← offset_succ]
      exact hx (i+1) (Nat.succ_lt_succ hi)

theorem copyUp_inside (m : Memory) (hn : n ≤ 2 ^ 64) (hread : ∀ i < n, 0 < i → offset s i ≠ d)
    {i : ℕ} (hi : i < n) : (copyUp n d s m).val (offset d i) = m.val (offset s i) := by
  induction n generalizing d s m i with
  | zero => omega
  | succ n ih =>
    rw [copyUp]
    cases i with
    | zero =>
      rw [copyUp_outside]
      · simp
      · intro j hj hd
        have hzero : 0 = j + 1 := (offset_inj d (by omega) (by omega)).mp (by rw [hd, offset_succ])
        omega
    | succ i =>
      rw [offset_succ, ih _ (by omega) _ (by omega), ← offset_succ]
      · rw [Store.val_write, Function.update_of_ne (hread (i+1) hi (Nat.succ_pos i))]
      · intro j hj h0 hclash
        rw [← offset_succ, offset_add_one] at hclash
        exact hread j (by omega) h0 ((BitVec.add_left_inj 1).mp hclash)

theorem copyDown_outside (m : Memory) (hx : ∀ i < n, offset x i ≠ d) :
    (copyDown n d s m).val x = m.val x := by
  induction n generalizing d s m with
  | zero => rfl
  | succ n ih =>
    rw [copyDown, ih]
    · have hxd : x ≠ d := by simpa using hx 0 (Nat.succ_pos n)
      simp [hxd]
    · intro i hi hclash
      exact hx (i+1) (Nat.succ_lt_succ hi) (offset_eq_sub_one.mp hclash)

theorem copyDown_inside (m : Memory) (hn : n ≤ 2 ^ 64) {y : Address}
    (hread : ∀ i < n, 0 < i → offset d i ≠ s) {i : ℕ} (hi : i < n) (hx : offset x i = d)
    (hy : offset y i = s) : (copyDown n d s m).val x = m.val y := by
  induction n generalizing d s m i with
  | zero => omega
  | succ n ih =>
    rw [copyDown]
    cases i with
    | zero =>
      rw [offset_zero] at hx hy
      rw [copyDown_outside]
      · simp [hx, hy]
      · intro j hj hd
        have hzero : j + 1 = 0 := by
          apply (offset_inj x (by omega) (by omega)).mp
          rw [offset_eq_sub_one.mp hd, offset_zero, hx]
        omega
    | succ i =>
      rw [ih _ (by omega) _ (by omega) (offset_eq_sub_one.mpr hx) (offset_eq_sub_one.mpr hy)]
      · have hne : y ≠ d := by
          rintro rfl
          exact hread (i+1) hi (Nat.succ_pos i) hy
        rw [Store.val_write, Function.update_of_ne hne]
      · intro j hj h0 hclash
        rw [offset_eq_sub_one, offset_succ, BitVec.sub_add_cancel] at hclash
        exact hread j (by omega) h0 hclash

end Copying

/-- The bytes of the destination are those that the source had, wherever the two blocks lie,
and no other byte changes. -/
theorem memmove_copies (dest src : Address) (n : BitVec 64) (m : Memory)
    (hdest : dest.toNat + n.toNat ≤ 2 ^ 64) (hsrc : src.toNat + n.toNat ≤ 2 ^ 64) :
    (memmove dest src n m).1 = dest ∧
    (∀ i < n.toNat, (memmove dest src n m).2.val (offset dest i) = m.val (offset src i)) ∧
    ∀ x, (∀ i < n.toNat, x ≠ offset dest i) → (memmove dest src n m).2.val x = m.val x := by
  have hn : n.toNat ≤ 2 ^ 64 := by omega
  unfold memmove
  split
  · rename_i hlt
    rw [BitVec.lt_def] at hlt
    refine ⟨rfl, ?_, fun x hx => copyUp_outside m hx⟩
    intro i hi
    apply copyUp_inside m hn _ hi
    intro j hj _ hclash
    have hup := toNat_offset_of_lt (p := src) (i := j) (by omega)
    rw [hclash] at hup
    omega
  · rename_i hge
    rw [BitVec.lt_def, not_lt] at hge
    -- the last byte of a block is `i` places after its byte `n - 1 - i`
    have hlast : ∀ (p : Address) {i : ℕ}, i < n.toNat →
        offset (offset p (n.toNat - 1 - i)) i = p + (n - 1) := by
      intro p i hi
      have hpos : 1 ≤ n := by
        rw [BitVec.le_def]
        exact Nat.one_le_of_lt hi
      have hone : (n - 1).toNat = n.toNat - 1 := BitVec.toNat_sub_of_le hpos
      rw [offset_offset, ← offset_toNat, hone]
      congr 1
      omega
    refine ⟨rfl, ?_, ?_⟩
    · intro i hi
      have hi' : n.toNat - 1 - (n.toNat - 1 - i) = i := by omega
      have hback : n.toNat - 1 - i < n.toNat := by omega
      have hd := hlast dest hback
      have hs := hlast src hback
      rw [hi'] at hd hs
      apply copyDown_inside m hn _ hback hd hs
      intro j hj h0 hclash
      have hzero : 0 < n.toNat := by omega
      rw [← hlast dest hzero, ← hlast src hzero, offset_zero, offset_zero, offset_offset] at hclash
      have hword := congrArg BitVec.toNat hclash
      rw [toNat_offset, toNat_offset] at hword
      omega
    · intro x hx
      apply copyDown_outside
      intro i hi hclash
      rw [← hlast dest hi] at hclash
      exact hx (n.toNat - 1 - i) (by omega) ((BitVec.add_left_inj _).mp hclash)

/-- Three bytes are moved up by one onto themselves. -/
theorem memmove_copies_example :
    let m : Memory := ⟨fun a => a.setWidth 8, []⟩
    ∀ i < 3, (memmove 0x1001 0x1000 3 m).2.val (offset 0x1001 i) = m.val (offset 0x1000 i) :=
  (memmove_copies 0x1001 0x1000 3 ⟨fun a => a.setWidth 8, []⟩ (by decide) (by decide)).2.1

end NaiLongKernel.Libc
