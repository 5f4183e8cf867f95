import NaiLongKernel.Driver.Gic

/-!
# The packed fields of the distributor

`SetPrio`, `SetConfig` and `SetTarget` change one field of a word each. The first two write
exactly their field. `SetTarget` clears two bits of a field of eight, so a processor from 2 on
stays a target when another one is set.
-/
namespace NaiLongKernel.Driver

open Foundation

namespace Gicd

variable {w w' : ℕ} {bank : GicBank} {intid i mask value : BitVec 32}

/-- The field of an interrupt. -/
def Layout.get (layout : Layout w) (bank : GicBank) (intid : BitVec 32) : BitVec w :=
  field w (bank.cells (layout.offset intid)) (intid.toNat % layout.size.toNat)

theorem Layout.slot_le (layout : Layout w) (i : ℕ) :
    i % layout.size.toNat * w + w ≤ 32 := by
  have hlt : i % layout.size.toNat < layout.size.toNat := Nat.mod_lt _ layout.size_pos
  calc i % layout.size.toNat * w + w = (i % layout.size.toNat + 1) * w := by rw [Nat.succ_mul]
    _ ≤ layout.size.toNat * w := Nat.mul_le_mul_right w hlt
    _ = 32 := layout.fits

theorem get_setField (layout : Layout w) (hmask : mask.toNat < 2 ^ w)
    (hvalue : value.toNat < 2 ^ w) (h : intid < 1024) (hi : i < 1024) :
    layout.get (setField layout bank mask intid value) i =
      if intid = i then layout.get bank i &&& ~~~mask.setWidth w ||| value.setWidth w
      else layout.get bank i := by
  rw [setField_eq layout h, Layout.get, GicBank.cells_setCell, Layout.get]
  by_cases hne : intid = i
  · subst hne
    rw [if_pos rfl, Function.update_self, field_patch_self (layout.slot_le _)]
  rw [if_neg hne]
  by_cases hoff : layout.offset i = layout.offset intid
  · have hword : i.toNat / layout.size.toNat = intid.toNat / layout.size.toNat := by
      have hnat := congrArg BitVec.toNat hoff
      rw [layout.toNat_offset h, layout.toNat_offset hi] at hnat
      omega
    have hslot := mod_ne_of_div_eq (fun he => hne (BitVec.eq_of_toNat_eq he).symm) hword
    rw [hoff, Function.update_self, field_patch_of_ne hmask hvalue hslot (layout.slot_le _)]
  · rw [Function.update_of_ne hoff]

theorem get_setField_of_disjoint (layout : Layout w) (layout' : Layout w') (h : intid < 1024)
    (hoff : layout'.offset i ≠ layout.offset intid) :
    layout'.get (setField layout bank mask intid value) i = layout'.get bank i := by
  rw [setField_eq layout h, Layout.get, GicBank.cells_setCell, Function.update_of_ne hoff, Layout.get]

/-! The words of the three kinds of fields do not meet. -/

theorem prio_offset_lt (h : intid < 1020) : (prioLayout.offset intid).toNat < 0x800 := by
  have hbase : prioLayout.base.toNat = 0x400 := rfl
  have hsize : prioLayout.size.toNat = 4 := rfl
  rw [prioLayout.toNat_offset (by bv_omega), hbase, hsize]
  bv_omega

theorem target_offset_range (h : intid < 1020) :
    0x800 ≤ (targetLayout.offset intid).toNat ∧ (targetLayout.offset intid).toNat < 0xC00 := by
  have hbase : targetLayout.base.toNat = 0x800 := rfl
  have hsize : targetLayout.size.toNat = 4 := rfl
  rw [targetLayout.toNat_offset (by bv_omega), hbase, hsize]
  bv_omega

theorem config_offset_ge (h : intid < 1020) : 0xC00 ≤ (configLayout.offset intid).toNat := by
  have hbase : configLayout.base.toNat = 0xC00 := rfl
  rw [configLayout.toNat_offset (by bv_omega), hbase]
  omega

theorem target_offset_ne_prio (h : intid < 1020) (hi : i < 1020) :
    targetLayout.offset i ≠ prioLayout.offset intid := by
  have hprio := prio_offset_lt h
  have htarget := target_offset_range hi
  intro he
  rw [he] at htarget
  omega

theorem config_offset_ne_prio (h : intid < 1020) (hi : i < 1020) :
    configLayout.offset i ≠ prioLayout.offset intid := by
  have hprio := prio_offset_lt h
  have hconfig := config_offset_ge hi
  intro he
  rw [he] at hconfig
  omega

theorem config_offset_ne_target (h : intid < 1020) (hi : i < 1020) :
    configLayout.offset i ≠ targetLayout.offset intid := by
  have htarget := target_offset_range h
  have hconfig := config_offset_ge hi
  intro he
  rw [he] at hconfig
  omega

end Gicd

/-! ## Sequences of updates -/

/-- An update with its arguments. -/
inductive GicFieldOp where
  | setTarget (intid cpuid : BitVec 32)
  | setPrio (intid prio : BitVec 32)
  | setConfig (intid config : BitVec 32)
deriving DecidableEq, Repr

namespace GicFieldOp

def exec (bank : GicBank) : GicFieldOp → GicBank
  | setTarget intid cpuid => Gicd.setTarget bank intid cpuid
  | setPrio intid prio => Gicd.setPrio bank intid prio
  | setConfig intid config => Gicd.setConfig bank intid config

/-- The arguments are in range. -/
def Valid : GicFieldOp → Prop
  | setTarget intid cpuid => intid < 1020 ∧ cpuid < 8
  | setPrio intid prio => intid < 1020 ∧ prio ≤ 255
  | setConfig intid config => intid < 1020 ∧ config ≤ 3

/-- The processor that the update makes the target of the interrupt `i`. -/
def target? (i : BitVec 32) : GicFieldOp → Option (BitVec 32)
  | setTarget intid cpuid => if intid = i then some cpuid else none
  | _ => none

def prio? (i : BitVec 32) : GicFieldOp → Option (BitVec 8)
  | setPrio intid prio => if intid = i then some (prio.setWidth 8) else none
  | _ => none

def config? (i : BitVec 32) : GicFieldOp → Option (BitVec 2)
  | setConfig intid config => if intid = i then some (config.setWidth 2) else none
  | _ => none

end GicFieldOp

namespace GicBank

/-- The bank after a sequence of updates. -/
def update (bank : GicBank) (ops : List GicFieldOp) : GicBank := ops.foldl GicFieldOp.exec bank

/-- Every field holds what was set last, or what it held before. -/
def FieldsExact (bank : GicBank) (ops : List GicFieldOp) : Prop :=
  ∀ i : BitVec 32, i < 1020 →
    Gicd.targetLayout.get (bank.update ops) i =
      ((latest (·.target? i) ops).map (1#8 <<< ·.toNat)).getD (Gicd.targetLayout.get bank i) ∧
    Gicd.prioLayout.get (bank.update ops) i =
      (latest (·.prio? i) ops).getD (Gicd.prioLayout.get bank i) ∧
    Gicd.configLayout.get (bank.update ops) i =
      (latest (·.config? i) ops).getD (Gicd.configLayout.get bank i)

/-- An interrupt that gets a target has no target from 2 on but the last one: not at the start,
and not in between. -/
def TargetsKept (bank : GicBank) (ops : List GicFieldOp) : Prop :=
  ∀ i cpuid, i < 1020 → latest (·.target? i) ops = some cpuid →
    ∀ other : BitVec 32, 2 ≤ other → other < 8 → other ≠ cpuid →
      (Gicd.targetLayout.get bank i).getLsbD other.toNat = false ∧
        GicFieldOp.setTarget i other ∉ ops

end GicBank

/-! ## One update -/

namespace GicFieldOp

variable {bank : GicBank} {op : GicFieldOp} {i : BitVec 32}

theorem prio_exec (hop : op.Valid) (hi : i < 1020) :
    Gicd.prioLayout.get (op.exec bank) i =
      (op.prio? i).getD (Gicd.prioLayout.get bank i) := by
  cases op with
  | setTarget intid cpuid =>
    obtain ⟨hid, -⟩ := hop
    exact Gicd.get_setField_of_disjoint _ _ (by bv_omega) (Gicd.target_offset_ne_prio hi hid).symm
  | setPrio intid prio =>
    obtain ⟨hid, hprio⟩ := hop
    have hones : ~~~Gicd.kIPRIORITYRn_BITS_MASK.setWidth 8 = 0#8 := by decide
    rw [exec, Gicd.setPrio, Gicd.get_setField _ (by decide) (by bv_omega) (by bv_omega)
      (by bv_omega), hones]
    split <;> simp_all [prio?]
  | setConfig intid config =>
    obtain ⟨hid, -⟩ := hop
    exact Gicd.get_setField_of_disjoint _ _ (by bv_omega) (Gicd.config_offset_ne_prio hi hid).symm

theorem config_exec (hop : op.Valid) (hi : i < 1020) :
    Gicd.configLayout.get (op.exec bank) i =
      (op.config? i).getD (Gicd.configLayout.get bank i) := by
  cases op with
  | setTarget intid cpuid =>
    obtain ⟨hid, -⟩ := hop
    exact Gicd.get_setField_of_disjoint _ _ (by bv_omega) (Gicd.config_offset_ne_target hid hi)
  | setPrio intid prio =>
    obtain ⟨hid, -⟩ := hop
    exact Gicd.get_setField_of_disjoint _ _ (by bv_omega) (Gicd.config_offset_ne_prio hid hi)
  | setConfig intid config =>
    obtain ⟨hid, hconfig⟩ := hop
    have hones : ~~~Gicd.kICFGRn_BITS_MASK.setWidth 2 = 0#2 := by decide
    rw [exec, Gicd.setConfig, Gicd.get_setField _ (by decide) (by bv_omega) (by bv_omega)
      (by bv_omega), hones]
    split <;> simp_all [config?]

theorem target?_eq_some {cpuid : BitVec 32} :
    op.target? i = some cpuid ↔ op = setTarget i cpuid := by
  cases op <;> simp [target?]

theorem target_exec (hop : op.Valid) (hi : i < 1020) :
    Gicd.targetLayout.get (op.exec bank) i =
      ((op.target? i).map fun cpuid =>
        Gicd.targetLayout.get bank i &&& 0xFC#8 ||| 1#8 <<< cpuid.toNat).getD
          (Gicd.targetLayout.get bank i) := by
  cases op with
  | setTarget intid cpuid =>
    obtain ⟨hid, hcpu⟩ := hop
    have hmask : ~~~Gicd.kICFGRn_BITS_MASK.setWidth 8 = 0xFC#8 := by decide
    have hlt : cpuid.toNat < 8 := hcpu
    have hvalue : (1#32 <<< cpuid).toNat < 2 ^ 8 := by
      rw [BitVec.shiftLeft_eq', BitVec.toNat_shiftLeft, Nat.shiftLeft_eq, BitVec.toNat_ofNat]
      refine lt_of_le_of_lt (Nat.mod_le _ _) ?_
      rw [Nat.one_mod_two_pow (by decide), Nat.one_mul]
      exact Nat.pow_lt_pow_right (by omega) hlt
    have hshift : (1#32 <<< cpuid).setWidth 8 = 1#8 <<< cpuid.toNat := by
      apply BitVec.eq_of_getLsbD_eq
      intro k hk
      rw [BitVec.getLsbD_setWidth, BitVec.shiftLeft_eq', getLsbD_one_shiftLeft (by omega),
        getLsbD_one_shiftLeft hlt]
      simp [hk]
    rw [exec, Gicd.setTarget, Gicd.get_setField _ (by decide) hvalue (by bv_omega) (by bv_omega),
      hmask, hshift]
    split <;> simp_all [target?]
  | setPrio intid prio =>
    obtain ⟨hid, -⟩ := hop
    exact Gicd.get_setField_of_disjoint _ _ (by bv_omega) (Gicd.target_offset_ne_prio hid hi)
  | setConfig intid config =>
    obtain ⟨hid, -⟩ := hop
    exact Gicd.get_setField_of_disjoint _ _ (by bv_omega) (Gicd.config_offset_ne_target hi hid).symm

theorem target_bit_exec (hop : op.Valid) (hi : i < 1020) {k : ℕ} (hk : k < 8) :
    (Gicd.targetLayout.get (op.exec bank) i).getLsbD k =
      ((op.target? i).map fun cpuid =>
        decide (2 ≤ k) && (Gicd.targetLayout.get bank i).getLsbD k || decide (k = cpuid.toNat)).getD
          ((Gicd.targetLayout.get bank i).getLsbD k) := by
  have hmask : ∀ k < 8, (0xFC#8).getLsbD k = decide (2 ≤ k) := by decide
  rw [target_exec hop hi]
  cases ht : op.target? i with
  | none => rfl
  | some cpuid =>
    rw [target?_eq_some.mp ht] at hop
    have hlt : cpuid.toNat < 8 := hop.2
    simp only [Option.map_some, Option.getD_some, BitVec.getLsbD_or, BitVec.getLsbD_and,
      getLsbD_one_shiftLeft hlt]
    rw [hmask k hk, Bool.and_comm]

end GicFieldOp

/-! ## Whole sequences -/

namespace GicBank

variable {bank : GicBank} {ops : List GicFieldOp} {i cpuid : BitVec 32}

theorem target_low_update (bank : GicBank) (hops : ∀ op ∈ ops, op.Valid) (hi : i < 1020) {k : ℕ}
    (hk : k < 2) :
    (Gicd.targetLayout.get (bank.update ops) i).getLsbD k =
      ((latest (·.target? i) ops).map fun cpuid => decide (k = cpuid.toNat)).getD
        ((Gicd.targetLayout.get bank i).getLsbD k) := by
  rw [← latest_map]
  apply observe_foldl (g := fun bank => (Gicd.targetLayout.get bank i).getLsbD k)
  intro op hop bank
  have hlow : ¬2 ≤ k := by omega
  rw [GicFieldOp.target_bit_exec (hops op hop) hi (by omega)]
  simp only [hlow, decide_false, Bool.false_and, Bool.false_or]

theorem target_high_update (bank : GicBank) (hops : ∀ op ∈ ops, op.Valid) (hi : i < 1020)
    {k : BitVec 32} (hk : 2 ≤ k) (hk' : k < 8) :
    (Gicd.targetLayout.get (bank.update ops) i).getLsbD k.toNat = true ↔
      .setTarget i k ∈ ops ∨ (Gicd.targetLayout.get bank i).getLsbD k.toNat = true := by
  have hk2 : 2 ≤ k.toNat := hk
  have hstep : ∀ op ∈ ops, ∀ bank : GicBank,
      (Gicd.targetLayout.get (op.exec bank) i).getLsbD k.toNat =
        (decide (op = .setTarget i k) || (Gicd.targetLayout.get bank i).getLsbD k.toNat) := by
    intro op hop bank
    rw [GicFieldOp.target_bit_exec (hops op hop) hi hk',
      ← Bool.decide_congr GicFieldOp.target?_eq_some]
    cases ht : op.target? i with
    | none => simp
    | some cpuid => simp [hk2, Bool.or_comm, BitVec.toNat_inj, eq_comm]
  have hrun := sticky_foldl (g := fun bank => (Gicd.targetLayout.get bank i).getLsbD k.toNat)
    hstep bank
  rw [update, hrun]
  simp

theorem target_update_iff (hops : ∀ op ∈ ops, op.Valid) (hi : i < 1020) :
    Gicd.targetLayout.get (bank.update ops) i =
        ((latest (·.target? i) ops).map (1#8 <<< ·.toNat)).getD (Gicd.targetLayout.get bank i) ↔
      ∀ cpuid, latest (·.target? i) ops = some cpuid →
        ∀ other : BitVec 32, 2 ≤ other → other < 8 → other ≠ cpuid →
          (Gicd.targetLayout.get bank i).getLsbD other.toNat = false ∧
            GicFieldOp.setTarget i other ∉ ops := by
  have hlow := fun k (hk : k < 2) => target_low_update bank hops hi hk
  have hhigh := fun (k : BitVec 32) hk hk' =>
    target_high_update bank (k := k) hops hi hk hk'
  have hnat : ∀ k < 8, (BitVec.ofNat 32 k).toNat = k := by decide
  cases hlast : latest (·.target? i) ops with
  | none =>
    refine iff_of_true (BitVec.eq_of_getLsbD_eq fun k hk => ?_) (by simp)
    obtain hk2 | hk2 := lt_or_ge k 2
    · simpa [hlast] using hlow k hk2
    · have hno : GicFieldOp.setTarget i (BitVec.ofNat 32 k) ∉ ops := by
        intro hmem
        have hnone := eq_none_of_latest hlast hmem
        simp [GicFieldOp.target?] at hnone
      have hbit := hhigh (BitVec.ofNat 32 k) (by bv_omega) (by bv_omega)
      rw [hnat k hk] at hbit
      exact Bool.eq_iff_iff.mpr (hbit.trans (or_iff_right hno))
  | some cpuid =>
    obtain ⟨op, hop, htarget⟩ := exists_of_latest hlast
    rw [GicFieldOp.target?_eq_some.mp htarget] at hop
    have hlt : cpuid.toNat < 8 := (hops _ hop).2
    simp only [Option.map_some, Option.getD_some, Option.some.injEq, forall_eq']
    constructor
    · intro h other h2 h8 hne
      have hbit := hhigh other h2 h8
      have hne' : other.toNat ≠ cpuid.toNat := fun he => hne (BitVec.eq_of_toNat_eq he)
      rw [h, getLsbD_one_shiftLeft hlt, decide_eq_true_iff] at hbit
      exact ⟨Bool.eq_false_iff.mpr fun hold => hne' (hbit.mpr (.inr hold)),
        fun hmem => hne' (hbit.mpr (.inl hmem))⟩
    · intro h
      apply BitVec.eq_of_getLsbD_eq
      intro k hk
      rw [getLsbD_one_shiftLeft hlt]
      obtain hk2 | hk2 := lt_or_ge k 2
      · simpa [hlast] using hlow k hk2
      · have hbit := hhigh (BitVec.ofNat 32 k) (by bv_omega) (by bv_omega)
        rw [hnat k hk] at hbit
        rw [Bool.eq_iff_iff, hbit, decide_eq_true_iff]
        by_cases he : BitVec.ofNat 32 k = cpuid
        · rw [he]
          exact iff_of_true (.inl hop) (by rw [← he, hnat k hk])
        · obtain ⟨hold, hno⟩ := h (BitVec.ofNat 32 k) (by bv_omega) (by bv_omega) he
          rw [hnat k hk] at hold
          refine iff_of_false ?_ fun hs => he (BitVec.eq_of_toNat_eq ((hnat k hk).trans hs))
          simp [hno, hold]

end GicBank

/-- Priorities and configurations are always exact; targets are exactly when no processor from
2 on is left behind. -/
theorem gic_fields_exact_iff (bank : GicBank) (ops : List GicFieldOp)
    (hops : ∀ op ∈ ops, op.Valid) : bank.FieldsExact ops ↔ bank.TargetsKept ops := by
  constructor
  · intro h i cpuid hi
    exact (GicBank.target_update_iff hops hi).mp (h i hi).1 cpuid
  · intro h i hi
    refine ⟨(GicBank.target_update_iff hops hi).mpr fun cpuid => h i cpuid hi, ?_, ?_⟩
    · apply observe_foldl (g := fun bank => Gicd.prioLayout.get bank i)
      intro op hop bank
      exact GicFieldOp.prio_exec (hops op hop) hi
    · apply observe_foldl (g := fun bank => Gicd.configLayout.get bank i)
      intro op hop bank
      exact GicFieldOp.config_exec (hops op hop) hi

/-- Interrupt 40 goes from processor 0 to processor 1. -/
theorem gic_fields_exact_iff_example :
    GicBank.FieldsExact ⟨fun _ => 0, fun _ => 0, fun _ => 0⟩
      [.setTarget 40 0, .setPrio 40 7, .setTarget 40 1] := by
  apply (gic_fields_exact_iff _ _ ?_).mpr
  · intro i cpuid hi hlast other h2 h8 hne
    refine ⟨by simp [Gicd.Layout.get, field], ?_⟩
    intro hmem
    simp only [List.mem_cons, List.not_mem_nil, GicFieldOp.setTarget.injEq, reduceCtorEq,
      or_false, false_or] at hmem
    bv_omega
  · intro op hop
    simp only [List.mem_cons, List.not_mem_nil, or_false] at hop
    obtain rfl | rfl | rfl := hop <;> exact ⟨by decide, by decide⟩

/-- Interrupt 40 goes from processor 2 to processor 0, and both are its targets. -/
theorem target_left_behind :
    let bank : GicBank := ⟨fun _ => 0, fun _ => 0, fun _ => 0⟩
    let ops := [GicFieldOp.setTarget 40 2, .setTarget 40 0]
    latest (·.target? 40) ops = some 0 ∧
      Gicd.targetLayout.get (bank.update ops) 40 = 5 ∧ ¬bank.FieldsExact ops := by
  intro bank ops
  refine ⟨by decide, by decide, ?_⟩
  intro h
  have htarget := (h 40 (by decide)).1
  revert htarget
  decide

end NaiLongKernel.Driver
