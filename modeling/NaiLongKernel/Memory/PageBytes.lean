import NaiLongKernel.Memory.VirtualMemory

/-!
# The bytes of a page

The memory is kept in words, as the tables use it. Page contents are read and written by
byte, least significant byte of a word first.
-/
namespace NaiLongKernel.Memory

/-- Byte `j` of a word. -/
def byteOf (w : BitVec 64) (j : ℕ) : BitVec 8 := w.extractLsb' (8 * j) 8

/-- The word with byte `j` replaced. -/
def setByte (w : BitVec 64) (j : ℕ) (b : BitVec 8) : BitVec 64 :=
  (w &&& ~~~(0xFF#64 <<< (8 * j))) ||| (b.setWidth 64 <<< (8 * j))

/-- The byte at an offset of a page. -/
def Vm.byteAt (vm : Vm) (page : Addr) (offset : ℕ) : BitVec 8 :=
  byteOf (vm.mem page (offset / 8)) (offset % 8)

def Vm.writeByte (page : Addr) (offset : ℕ) (b : BitVec 8) (vm : Vm) : Vm :=
  vm.writeEntry page (offset / 8) (setByte (vm.mem page (offset / 8)) (offset % 8) b)

/-- `memcpy` of `n` bytes of `src` into a page. -/
def Vm.copyBytes (src : ℕ → BitVec 8) (page : Addr) : (n dst first : ℕ) → Vm → Vm
  | 0, _, _, vm => vm
  | n+1, dst, first, vm => Vm.copyBytes src page n (dst + 1) (first + 1) (vm.writeByte page dst (src first))

theorem lowByte_getLsbD (i : ℕ) : (0xFF#64).getLsbD i = decide (i < 8) := by
  have hmask : ∀ i : Fin 64, (0xFF#64).getLsbD i = decide (i.val < 8) := by decide
  by_cases hi : i < 64
  · exact hmask ⟨i, hi⟩
  · rw [BitVec.getLsbD_of_ge _ _ (by omega)]
    simp only [Bool.false_eq, decide_eq_false_iff_not]
    omega

theorem byteOf_setByte {w : BitVec 64} {j k : ℕ} (hj : j < 8) (b : BitVec 8) :
    byteOf (setByte w j b) k = if k = j then b else byteOf w k := by
  apply BitVec.eq_of_getLsbD_eq
  intro i hi
  simp only [byteOf, setByte, BitVec.getLsbD_extractLsb', BitVec.getLsbD_or, BitVec.getLsbD_and,
    BitVec.getLsbD_not, BitVec.getLsbD_shiftLeft, BitVec.getLsbD_setWidth, lowByte_getLsbD]
  by_cases hkj : k = j
  · subst hkj
    have hpos : 8 * k + i < 64 := by omega
    have hsub : 8 * k + i - 8 * k = i := by omega
    simp [hpos, hsub, hi]
    omega
  · rw [if_neg hkj]
    obtain hlt | hgt := lt_or_gt_of_ne hkj
    · have hbelow : 8 * k + i < 8 * j := by omega
      have hpos : 8 * k + i < 64 := by omega
      simp [hbelow, hpos, hi]
    · have habove : ¬ 8 * k + i < 8 * j := by omega
      have hmask : ¬ 8 * k + i - 8 * j < 8 := by omega
      have hzero : b.getLsbD (8 * k + i - 8 * j) = false := BitVec.getLsbD_of_ge _ _ (by omega)
      by_cases hpos : 8 * k + i < 64
      · simp [habove, hmask, hzero, hpos, hi]
      · have hw : w.getLsbD (8 * k + i) = false := BitVec.getLsbD_of_ge _ _ (by omega)
        simp [hpos, hw]

section Write

variable {vm : Vm} {page : Addr} {o : ℕ}

theorem byteAt_writeByte (offset : ℕ) (b : BitVec 8) :
    (vm.writeByte page offset b).byteAt page o = if o = offset then b else vm.byteAt page o := by
  have hmod : offset % 8 < 8 := Nat.mod_lt _ (by decide)
  simp only [Vm.byteAt, Vm.writeByte, Vm.writeEntry, Function.update_self]
  by_cases hword : o / 8 = offset / 8
  · rw [hword, Function.update_self, byteOf_setByte hmod]
    have hsame : o % 8 = offset % 8 ↔ o = offset := by omega
    simp only [hsame]
  · rw [Function.update_of_ne hword, if_neg]
    rintro rfl
    exact hword rfl

theorem byteAt_copyBytes (src : ℕ → BitVec 8) (n dst first : ℕ) :
    (vm.copyBytes src page n dst first).byteAt page o =
      if dst ≤ o ∧ o < dst + n then src (first + (o - dst)) else vm.byteAt page o := by
  induction n generalizing vm dst first with
  | zero =>
    rw [Vm.copyBytes, if_neg]
    omega
  | succ n ih =>
    rw [Vm.copyBytes, ih, byteAt_writeByte]
    by_cases hlater : dst + 1 ≤ o ∧ o < dst + 1 + n
    · have hin : dst ≤ o ∧ o < dst + (n + 1) := by omega
      have hsrc : first + 1 + (o - (dst + 1)) = first + (o - dst) := by omega
      rw [if_pos hlater, if_pos hin, hsrc]
    · rw [if_neg hlater]
      by_cases ho : o = dst
      · have hin : dst ≤ o ∧ o < dst + (n + 1) := by omega
        rw [if_pos ho, if_pos hin, ho, Nat.sub_self, Nat.add_zero]
      · have hout : ¬ (dst ≤ o ∧ o < dst + (n + 1)) := by omega
        rw [if_neg ho, if_neg hout]

theorem copyBytes_frame (vm : Vm) (src : ℕ → BitVec 8) (n dst first : ℕ) :
    (∀ x, x ≠ page → (vm.copyBytes src page n dst first).mem x = vm.mem x) ∧
      (vm.copyBytes src page n dst first).live = vm.live ∧
      (vm.copyBytes src page n dst first).calls = vm.calls ∧
      (vm.copyBytes src page n dst first).freed = vm.freed ∧
      (vm.copyBytes src page n dst first).destroyed = vm.destroyed := by
  induction n generalizing vm dst first with
  | zero => exact ⟨fun _ _ => rfl, rfl, rfl, rfl, rfl⟩
  | succ n ih =>
    obtain ⟨hmem, hlive, hcalls, hfreed, hdestroyed⟩ :=
      ih (vm.writeByte page dst (src first)) (dst + 1) (first + 1)
    refine ⟨?_, hlive, hcalls, hfreed, hdestroyed⟩
    intro x hx
    exact (hmem x hx).trans (Function.update_of_ne hx _ _)

theorem byteAt_clearTable : (vm.clearTable page).byteAt page o = 0 := by
  simp [Vm.byteAt, Vm.clearTable, byteOf]

theorem byteAt_congr {vm' : Vm} (h : vm'.mem page = vm.mem page) : vm'.byteAt page o = vm.byteAt page o := by
  rw [Vm.byteAt, Vm.byteAt, h]

end Write

end NaiLongKernel.Memory
