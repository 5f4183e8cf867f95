import Mathlib.Data.Nat.Digits.Defs
import NaiLongKernel.Libc.Ctype

/-!
# Reading integers

`strtoxMain` reads the magnitude of an integer into an unsigned accumulator and reports the
sign and whether the accumulator was too small; `strtoull` and `strtoll` make their results
of that. `numeral` is the grammar that they implement, with a magnitude of any size.
-/
namespace NaiLongKernel.Libc

open Foundation

/-- The base and the string after an optional `0x`. -/
def detectBase (isSigned : Bool) (s : Str) (base : ℤ) : Str × ℤ :=
  let (s, base) :=
    if (base = 0 ∨ base = 16) ∧ charAt isSigned s 0 = 0x30 ∧
        (charAt isSigned s 1 = 0x78 ∨ charAt isSigned s 1 = 0x58) then
      if isxdigit (charAt isSigned s 2) then (s.drop 2, 16)
      else if base = 0 then (s, 8) else (s, base)
    else (s, base)
  if base = 0 then (s, if charAt isSigned s 0 = 0x30 then 8 else 10) else (s, base)

/-- The value of a digit or a letter; `none` is the `break` of the loop. -/
def digit (c : ℤ) : Traced (Option ℤ) :=
  if isdigit c then do
    let c ← signed 32 (c - 0x30)
    pure (some c)
  else if isalpha c then do
    let u ← toupper c
    let c ← signed 32 (u - 0x41)
    let c ← signed 32 (c + 10)
    pure (some c)
  else pure none

/-- `any` and `acc` after a digit below the base. -/
def accumulate (base : ℤ) (cutoff : BitVec 64) (cutlim : ℤ) (any : ℤ) (acc : BitVec 64) (c : ℤ) :
    ℤ × BitVec 64 :=
  if any < 0 ∨ cutoff < acc ∨ (acc = cutoff ∧ cutlim < c) then (-1, acc)
  else (1, acc * BitVec.ofInt 64 base + BitVec.ofInt 64 c)

def digitLoop (isSigned : Bool) (base : ℤ) (cutoff : BitVec 64) (cutlim : ℤ) :
    (s : Str) → (any : ℤ) → (acc : BitVec 64) → Traced (Str × ℤ × BitVec 64)
  | [], any, acc => pure ([], any, acc)
  | b :: s, any, acc => do
    match ← digit (charToInt isSigned b) with
    | none => pure (b :: s, any, acc)
    | some c =>
      if base ≤ c then pure (b :: s, any, acc)
      else
        let (any, acc) := accumulate base cutoff cutlim any acc c
        digitLoop isSigned base cutoff cutlim s any acc

/-- What `strtox_main` returns and stores through its pointers. -/
structure Parsed where
  acc : BitVec 64
  negative : Bool
  overflow : Bool
  endptr : Option Str
deriving DecidableEq

/-- `endptr` is `none` for a null pointer, and otherwise what it points to. -/
def strtoxMain (isSigned : Bool) (nptr : Str) (endptr : Option Str) (base : ℤ) : Traced Parsed :=
  let s := skipSpaces isSigned nptr
  let (negative, s) := skipSign isSigned s
  let (s, base) := detectBase isSigned s base
  if base < 2 ∨ 36 < base then pure ⟨0, negative, false, endptr.map fun _ => nptr⟩
  else do
    let cutoff := BitVec.allOnes 64 / BitVec.ofInt 64 base
    let cutlim := ((BitVec.allOnes 64 % BitVec.ofInt 64 base).setWidth 32).toInt
    let (s, any, acc) ← digitLoop isSigned base cutoff cutlim s 0 0
    let acc := if any < 0 then BitVec.allOnes 64 else acc
    pure ⟨acc, negative, decide (any < 0), endptr.map fun _ => if any ≠ 0 then s else nptr⟩

def strtoull (isSigned : Bool) (nptr : Str) (endptr : Option Str) (base : ℤ) :
    Traced (BitVec 64 × Option Str) := do
  let r ← strtoxMain isSigned nptr endptr base
  if r.overflow then pure (BitVec.allOnes 64, r.endptr)
  else pure (if r.negative then -r.acc else r.acc, r.endptr)

def llongMax : BitVec 64 := 0x7fffffffffffffff

def strtoll (isSigned : Bool) (nptr : Str) (endptr : Option Str) (base : ℤ) :
    Traced (ℤ × Option Str) := do
  let r ← strtoxMain isSigned nptr endptr base
  if r.overflow then pure (if r.negative then -2 ^ 63 else 2 ^ 63 - 1, r.endptr)
  else if r.negative then
    if llongMax + 1 < r.acc then pure (-2 ^ 63, r.endptr)
    else do
      let v ← signed 64 (-r.acc.toInt)
      pure (v, r.endptr)
  else if llongMax < r.acc then pure (2 ^ 63 - 1, r.endptr)
  else pure (r.acc.toInt, r.endptr)

/-- `long` has the width of `long long` on the three machines. -/
def strtol (isSigned : Bool) (nptr : Str) (endptr : Option Str) (base : ℤ) :
    Traced (ℤ × Option Str) :=
  strtoll isSigned nptr endptr base

/-! ## The grammar -/

def digitValue (b : Byte) : ℕ :=
  if 0x30 ≤ b.toNat ∧ b.toNat ≤ 0x39 then b.toNat - 0x30
  else if 0x61 ≤ b.toNat ∧ b.toNat ≤ 0x7a then b.toNat - 0x61 + 10
  else if 0x41 ≤ b.toNat ∧ b.toNat ≤ 0x5a then b.toNat - 0x41 + 10
  else 36

def isDigitBelow (base : ℕ) (b : Byte) : Bool := digitValue b < base

@[simp] theorem isDigitBelow_eq_true {base : ℕ} {b : Byte} :
    isDigitBelow base b = true ↔ digitValue b < base :=
  decide_eq_true_iff

def readSign : Str → Bool × Str
  | [] => (false, [])
  | b :: s => if b = 0x2d then (true, s) else if b = 0x2b then (false, s) else (false, b :: s)

/-- A hexadecimal prefix with a digit after it. -/
def hasHexPrefix (s : Str) : Bool :=
  match s with
  | b :: x :: d :: _ => b = 0x30 ∧ (x = 0x78 ∨ x = 0x58) ∧ isDigitBelow 16 d
  | _ => false

/-- The base that is used, and what follows an optional prefix. -/
def readBase (base : ℕ) (s : Str) : ℕ × Str :=
  if (base = 0 ∨ base = 16) ∧ hasHexPrefix s then (16, s.drop 2)
  else if base = 0 then (if s.head? = some 0x30 then 8 else 10, s)
  else (base, s)

/-- A string read as an integer: sign, base, the longest run of digits and the rest. -/
structure Numeral where
  negative : Bool
  base : ℕ
  digits : List ℕ
  rest : Str
deriving DecidableEq

def numeral (nptr : Str) (base : ℕ) : Numeral :=
  let (negative, s) := readSign (nptr.dropWhile spaceByte)
  let (base, s) := readBase base s
  ⟨negative, base, (s.takeWhile (isDigitBelow base)).map digitValue, s.dropWhile (isDigitBelow base)⟩

def Numeral.magnitude (N : Numeral) : ℕ := Nat.ofDigits N.base N.digits.reverse

def Numeral.value (N : Numeral) : ℤ := if N.negative then -N.magnitude else N.magnitude

/-- Where the reading stops: after the digits, or at the start if there are none. -/
def Numeral.stop (N : Numeral) (nptr : Str) : Str := if N.digits = [] then nptr else N.rest

/-! ## The scan -/

section Scan

variable {isSigned : Bool} {b : Byte} {s : Str} {base v d : ℕ} {any : ℤ} {acc : BitVec 64}

theorem skipSign_eq (isSigned : Bool) (s : Str) : skipSign isSigned s = readSign s := by
  cases s with
  | nil => cases isSigned <;> rfl
  | cons b s =>
    have hminus : charToInt isSigned b = 0x2d ↔ b = 0x2d := charToInt_eq_iff 0x2d (by decide)
    have hplus : charToInt isSigned b = 0x2b ↔ b = 0x2b := charToInt_eq_iff 0x2b (by decide)
    simp only [skipSign, readSign, charAt, List.getD_cons_zero, List.tail_cons, hminus, hplus]

theorem isxdigit_charToInt (isSigned : Bool) (b : Byte) :
    isxdigit (charToInt isSigned b) = isDigitBelow 16 b := by
  have h := charToInt_cases isSigned b
  rw [Bool.eq_iff_iff, isDigitBelow_eq_true]
  simp only [isxdigit, isdigit, digitValue, Bool.or_eq_true, Bool.and_eq_true, decide_eq_true_eq]
  split_ifs <;> omega

theorem hasHexPrefix_iff (isSigned : Bool) (s : Str) :
    hasHexPrefix s = true ↔ (charAt isSigned s 0 = 0x30 ∧
      (charAt isSigned s 1 = 0x78 ∨ charAt isSigned s 1 = 0x58)) ∧
        isxdigit (charAt isSigned s 2) = true := by
  have hzero : ∀ b, charToInt isSigned b = 0x30 ↔ b = 0x30 := fun b => charToInt_eq_iff 0x30 (by decide)
  have hx : ∀ b, charToInt isSigned b = 0x78 ↔ b = 0x78 := fun b => charToInt_eq_iff 0x78 (by decide)
  have hX : ∀ b, charToInt isSigned b = 0x58 ↔ b = 0x58 := fun b => charToInt_eq_iff 0x58 (by decide)
  -- the three bytes that are read, or the null byte before them
  obtain _ | ⟨b, _ | ⟨x, _ | ⟨d, s⟩⟩⟩ := s
  · simp [hasHexPrefix, charAt]
  · simp [hasHexPrefix, charAt]
  · simp [hasHexPrefix, charAt, isxdigit, isdigit]
  · simp [hasHexPrefix, charAt, hzero, hx, hX, isxdigit_charToInt, and_assoc]

theorem charAt_zero_eq_iff (isSigned : Bool) (s : Str) :
    charAt isSigned s 0 = 0x30 ↔ s.head? = some 0x30 := by
  cases s with
  | nil => cases isSigned <;> simp [charAt, charToInt]
  | cons b s =>
    have hzero : charToInt isSigned b = 0x30 ↔ b = 0x30 := charToInt_eq_iff 0x30 (by decide)
    simp [charAt, hzero]

theorem detectBase_eq (isSigned : Bool) (s : Str) (base : ℕ) :
    detectBase isSigned s base = ((readBase base s).2, ((readBase base s).1 : ℤ)) := by
  have hprefix := hasHexPrefix_iff isSigned s
  have hzero := charAt_zero_eq_iff isSigned s
  have hb0 : (base : ℤ) = 0 ↔ base = 0 := by omega
  have hb16 : (base : ℤ) = 16 ↔ base = 16 := by omega
  unfold detectBase readBase
  simp only [hb0, hb16, hprefix, hzero]
  split_ifs <;> simp_all

theorem signed_int_exactly {z : ℤ} (hlo : -0x80 ≤ z) (hhi : z ≤ 0x80) : Exactly (signed 32 z) z := by
  apply Exactly.signed (by decide)
  constructor <;> norm_num <;> omega

theorem digit_exactly (isSigned : Bool) (b : Byte) :
    Exactly (digit (charToInt isSigned b))
      (if digitValue b < 36 then some (digitValue b : ℤ) else none) := by
  have h := charToInt_cases isSigned b
  generalize charToInt isSigned b = c at h
  have hdigit : isdigit c = true ↔ 0x30 ≤ b.toNat ∧ b.toNat ≤ 0x39 := by
    simp only [isdigit, Bool.and_eq_true, decide_eq_true_eq]
    omega
  have hlower : islower c = true ↔ 0x61 ≤ b.toNat ∧ b.toNat ≤ 0x7a := by
    simp only [islower, Bool.and_eq_true, decide_eq_true_eq]
    omega
  have hupper : isupper c = true ↔ 0x41 ≤ b.toNat ∧ b.toNat ≤ 0x5a := by
    simp only [isupper, Bool.and_eq_true, decide_eq_true_eq]
    omega
  have hletter : isalpha c = true ↔ islower c = true ∨ isupper c = true := by
    simp [isalpha]
  rw [digit]
  by_cases hd : isdigit c = true
  · have hb := hdigit.mp hd
    have hvalue : digitValue b = b.toNat - 0x30 := if_pos hb
    rw [if_pos hd, if_pos (by omega), show (digitValue b : ℤ) = c - 0x30 by omega]
    exact (signed_int_exactly (by omega) (by omega)).bind (Exactly.pure _)
  rw [if_neg hd]
  rw [hdigit] at hd
  by_cases hl : islower c = true
  · have hb := hlower.mp hl
    have hvalue : digitValue b = b.toNat - 0x61 + 10 := by rw [digitValue, if_neg hd, if_pos hb]
    rw [if_pos (hletter.mpr (Or.inl hl)), if_pos (by omega), toupper, if_pos hl,
      show (digitValue b : ℤ) = c - 0x20 - 0x41 + 10 by omega]
    exact (signed_int_exactly (by omega) (by omega)).bind
      ((signed_int_exactly (by omega) (by omega)).bind
        ((signed_int_exactly (by omega) (by omega)).bind (Exactly.pure _)))
  by_cases hu : isupper c = true
  · have hb := hupper.mp hu
    have hvalue : digitValue b = b.toNat - 0x41 + 10 := by
      rw [digitValue, if_neg hd, if_neg (by omega), if_pos hb]
    rw [if_pos (hletter.mpr (Or.inr hu)), if_pos (by omega), toupper, if_neg hl,
      show (digitValue b : ℤ) = c - 0x41 + 10 by omega]
    exact (Exactly.pure c).bind ((signed_int_exactly (by omega) (by omega)).bind
      ((signed_int_exactly (by omega) (by omega)).bind (Exactly.pure _)))
  · have hnone : ¬ isalpha c = true := by
      rw [hletter]
      exact not_or.mpr ⟨hl, hu⟩
    rw [hlower] at hl
    rw [hupper] at hu
    have hvalue : digitValue b = 36 := by rw [digitValue, if_neg hd, if_neg hl, if_neg hu]
    rw [if_neg hnone, hvalue, if_neg (by omega)]
    exact Exactly.pure none

/-- The accumulator after digits of the exact value `v`. -/
structure Accumulated (v : ℕ) (any : ℤ) (acc : BitVec 64) : Prop where
  below : v < 2 ^ 64 → 0 ≤ any ∧ acc.toNat = v
  above : 2 ^ 64 ≤ v → any = -1

theorem cutoff_iff (M : ℕ) (hd : d < base) :
    M / base < v ∨ v = M / base ∧ M % base < d ↔ M < d + base * v := by
  have hM : base * (M / base) + M % base = M := Nat.div_add_mod M base
  have hmod : M % base < base := Nat.mod_lt _ (by omega)
  obtain hlt | rfl | hgt := lt_trichotomy v (M / base)
  · have hstep : base * (v + 1) ≤ base * (M / base) := Nat.mul_le_mul_left base hlt
    rw [Nat.mul_succ] at hstep
    omega
  · omega
  · have hstep : base * (M / base + 1) ≤ base * v := Nat.mul_le_mul_left base hgt
    rw [Nat.mul_succ] at hstep
    omega

theorem Accumulated.digit (h : Accumulated v any acc) (hlo : 2 ≤ base) (hhi : base ≤ 36)
    (hd : d < base) :
    ∃ any' acc', accumulate base (BitVec.allOnes 64 / BitVec.ofInt 64 base)
        ((BitVec.allOnes 64 % BitVec.ofInt 64 base).setWidth 32).toInt any acc d = (any', acc') ∧
      Accumulated (d + base * v) any' acc' ∧ any' ≠ 0 := by
  have hbase : (BitVec.ofInt 64 base).toNat = base := by
    rw [BitVec.ofInt_natCast, BitVec.toNat_ofNat]
    omega
  have hcutoff : (BitVec.allOnes 64 / BitVec.ofInt 64 base).toNat = (2 ^ 64 - 1) / base := by
    rw [BitVec.toNat_udiv, BitVec.toNat_allOnes, hbase]
  have hcutlim : ((BitVec.allOnes 64 % BitVec.ofInt 64 base).setWidth 32).toInt =
      ((2 ^ 64 - 1) % base : ℕ) := by
    have hmod : (2 ^ 64 - 1) % base < base := Nat.mod_lt _ (by omega)
    have hword : ((BitVec.allOnes 64 % BitVec.ofInt 64 base).setWidth 32).toNat = (2 ^ 64 - 1) % base := by
      rw [BitVec.toNat_setWidth, BitVec.toNat_umod, BitVec.toNat_allOnes, hbase]
      omega
    rw [BitVec.toInt_eq_toNat_of_lt (by omega), hword]
  have hgrow : v ≤ base * v := Nat.le_mul_of_pos_left v (by omega)
  rw [accumulate, hcutlim]
  obtain hv | hv := lt_or_ge v (2 ^ 64)
  · obtain ⟨hany, hacc⟩ := h.below hv
    have hcond : (any < 0 ∨ BitVec.allOnes 64 / BitVec.ofInt 64 base < acc ∨
        acc = BitVec.allOnes 64 / BitVec.ofInt 64 base ∧ (((2 ^ 64 - 1) % base : ℕ) : ℤ) < d) ↔
          2 ^ 64 ≤ d + base * v := by
      have hcut := cutoff_iff (v := v) (2 ^ 64 - 1) hd
      rw [BitVec.lt_def, ← BitVec.toNat_inj, hcutoff, hacc]
      omega
    by_cases hover : 2 ^ 64 ≤ d + base * v
    · rw [if_pos (hcond.mpr hover)]
      exact ⟨-1, acc, rfl, ⟨fun hlt => absurd hlt (not_lt.mpr hover), fun _ => rfl⟩, by omega⟩
    · rw [if_neg (mt hcond.mp hover)]
      refine ⟨1, _, rfl, ⟨fun hlt => ⟨by omega, ?_⟩, fun hge => absurd hge hover⟩, by omega⟩
      rw [BitVec.toNat_add, BitVec.toNat_mul, hbase, hacc, BitVec.ofInt_natCast, BitVec.toNat_ofNat,
        Nat.mul_comm v base]
      omega
  · have hany := h.above hv
    rw [if_pos (Or.inl (by omega))]
    exact ⟨-1, acc, rfl, ⟨fun hlt => by omega, fun _ => rfl⟩, by omega⟩

theorem digitLoop_exactly (isSigned : Bool) (hlo : 2 ≤ base) (hhi : base ≤ 36) (s : Str)
    (h : Accumulated v any acc) :
    ∃ any' acc', Exactly (digitLoop isSigned base (BitVec.allOnes 64 / BitVec.ofInt 64 base)
        ((BitVec.allOnes 64 % BitVec.ofInt 64 base).setWidth 32).toInt s any acc)
          (s.dropWhile (isDigitBelow base), any', acc') ∧
      Accumulated (((s.takeWhile (isDigitBelow base)).map digitValue).foldl
        (fun v d => d + base * v) v) any' acc' ∧
      (any' = 0 ↔ any = 0 ∧ s.takeWhile (isDigitBelow base) = []) := by
  induction s generalizing v any acc with
  | nil => exact ⟨any, acc, Exactly.pure _, h, by simp⟩
  | cons b s ih =>
    by_cases hb : digitValue b < base
    · have hgo : isDigitBelow base b = true := isDigitBelow_eq_true.mpr hb
      obtain ⟨any₁, acc₁, hstep, hnext, hany⟩ := h.digit hlo hhi hb
      obtain ⟨any', acc', hrun, hacc, hzero⟩ := ih hnext
      refine ⟨any', acc', ?_, ?_, ?_⟩
      · rw [List.dropWhile_cons_of_pos hgo]
        apply (digit_exactly isSigned b).bind
        rw [if_pos (by omega)]
        have hbelow : ¬ (base : ℤ) ≤ digitValue b := by omega
        simp only [if_neg hbelow, hstep]
        exact hrun
      · rwa [List.takeWhile_cons_of_pos hgo, List.map_cons, List.foldl_cons]
      · simp [hgo, hzero, hany]
    · have hstop : isDigitBelow base b = false := Bool.eq_false_iff.mpr (isDigitBelow_eq_true.not.mpr hb)
      refine ⟨any, acc, ?_, ?_, ?_⟩
      · rw [List.dropWhile_cons_of_neg (by simp [hstop])]
        apply (digit_exactly isSigned b).bind
        by_cases hd : digitValue b < 36
        · rw [if_pos hd]
          have habove : (base : ℤ) ≤ digitValue b := by omega
          simp only [if_pos habove]
          exact Exactly.pure _
        · rw [if_neg hd]
          exact Exactly.pure _
      · simpa [hstop] using h
      · simp [hstop]

end Scan

/-! ## What the functions return -/

section Results

variable {isSigned : Bool} {nptr : Str} {endptr : Option Str} {base : ℕ}

def AcceptedBase (base : ℤ) : Prop := base = 0 ∨ 2 ≤ base ∧ base ≤ 36

instance (base : ℤ) : Decidable (AcceptedBase base) := inferInstanceAs (Decidable (_ ∨ _))

theorem readBase_bounds (h : AcceptedBase base) (s : Str) :
    2 ≤ (readBase base s).1 ∧ (readBase base s).1 ≤ 36 := by
  rw [readBase]
  unfold AcceptedBase at h
  split_ifs <;> omega

/-- What `strtox_main` reports of a numeral: the magnitude, cut to 64 bits. -/
def Numeral.parsed (N : Numeral) (nptr : Str) (endptr : Option Str) : Parsed :=
  ⟨BitVec.ofNat 64 (min N.magnitude (2 ^ 64 - 1)), N.negative, decide (2 ^ 64 ≤ N.magnitude),
    endptr.map fun _ => N.stop nptr⟩

theorem Numeral.magnitude_eq_foldl (N : Numeral) :
    N.magnitude = N.digits.foldl (fun v d => d + N.base * v) 0 := by
  rw [magnitude, Nat.ofDigits_eq_foldr, List.foldr_reverse]
  rfl

theorem Accumulated.parsed {N : Numeral} {any : ℤ} {acc : BitVec 64}
    (h : Accumulated N.magnitude any acc) (hany : any = 0 ↔ N.digits = []) (nptr : Str)
    (endptr : Option Str) :
    Parsed.mk (if any < 0 then BitVec.allOnes 64 else acc) N.negative (decide (any < 0))
      (endptr.map fun _ => if any ≠ 0 then N.rest else nptr) = N.parsed nptr endptr := by
  have hover : any < 0 ↔ 2 ^ 64 ≤ N.magnitude := by
    constructor
    · intro hneg
      by_contra hlt
      have hbelow := h.below (by omega)
      omega
    · intro hge
      have habove := h.above hge
      omega
  have hstop : (if any ≠ 0 then N.rest else nptr) = N.stop nptr := by
    rw [Numeral.stop]
    split_ifs <;> tauto
  have hvalue : (if any < 0 then BitVec.allOnes 64 else acc) =
      BitVec.ofNat 64 (min N.magnitude (2 ^ 64 - 1)) := by
    apply BitVec.eq_of_toNat_eq
    rw [BitVec.toNat_ofNat]
    split
    · rw [BitVec.toNat_allOnes]
      omega
    · have hbelow := h.below (by omega)
      omega
  rw [hvalue, hstop]
  simp only [Numeral.parsed, hover]

theorem strtoxMain_exactly (isSigned : Bool) (nptr : Str) (endptr : Option Str)
    (h : AcceptedBase base) :
    Exactly (strtoxMain isSigned nptr endptr base) ((numeral nptr base).parsed nptr endptr) := by
  simp only [strtoxMain, skipSpaces_eq, skipSign_eq, detectBase_eq]
  generalize hN : numeral nptr base = N
  simp only [numeral] at hN
  generalize readSign (nptr.dropWhile spaceByte) = sign at hN
  obtain ⟨negative, s⟩ := sign
  obtain ⟨hlo, hhi⟩ := readBase_bounds h s
  generalize readBase base s = resolved at hlo hhi hN
  obtain ⟨base, s⟩ := resolved
  replace hlo : 2 ≤ base := hlo
  replace hhi : base ≤ 36 := hhi
  have hstart : Accumulated 0 0 0 := ⟨fun _ => ⟨le_rfl, rfl⟩, by omega⟩
  obtain ⟨any, acc, hrun, hacc, hany⟩ := digitLoop_exactly isSigned hlo hhi s hstart
  rw [if_neg (by omega)]
  apply hrun.bind
  subst hN
  have hreport := Accumulated.parsed (N := ⟨negative, base, (s.takeWhile (isDigitBelow base)).map digitValue,
    s.dropWhile (isDigitBelow base)⟩) (by rwa [Numeral.magnitude_eq_foldl]) (by simpa using hany) nptr endptr
  rw [← hreport]
  exact Exactly.pure _

theorem strtoxMain_rejected (isSigned : Bool) (nptr : Str) (endptr : Option Str) {base : ℤ}
    (h : ¬ AcceptedBase base) :
    Exactly (strtoxMain isSigned nptr endptr base)
      ⟨0, (readSign (nptr.dropWhile spaceByte)).1, false, endptr.map fun _ => nptr⟩ := by
  unfold AcceptedBase at h
  have hkeep : ∀ s, detectBase isSigned s base = (s, base) := by
    intro s
    rw [detectBase, if_neg (by omega)]
    exact if_neg (by omega)
  simp only [strtoxMain, skipSpaces_eq, skipSign_eq, hkeep]
  rw [if_pos (by omega)]
  exact Exactly.pure _

/-- The result that `strtoll` makes of the report. -/
def Parsed.clamped (r : Parsed) : ℤ :=
  if r.negative then max (-2 ^ 63) (-r.acc.toNat) else min (2 ^ 63 - 1) r.acc.toNat

theorem strtoll_runs {r : Parsed} {base : ℤ} (h : Exactly (strtoxMain isSigned nptr endptr base) r)
    (hover : r.overflow = true → r.acc = BitVec.allOnes 64) :
    ∃ ops, Runs (strtoll isSigned nptr endptr base) (r.clamped, r.endptr) ops ∧
      ((∀ o ∈ ops, o.Fits) ↔ ¬ (r.negative = true ∧ r.acc.toNat = 2 ^ 63)) := by
  obtain ⟨ops, hrun, hops⟩ := h
  have hacc : r.acc.toNat < 2 ^ 64 := r.acc.isLt
  have hmax : llongMax.toNat = 2 ^ 63 - 1 := rfl
  have hmin : (llongMax + 1).toNat = 2 ^ 63 := rfl
  have hquiet : ∀ {f : Parsed → Traced (ℤ × Option Str)} {v : ℤ}, f r = pure (v, r.endptr) →
      v = r.clamped → ¬ (r.negative = true ∧ r.acc.toNat = 2 ^ 63) →
      ∃ ops, Runs (strtoxMain isSigned nptr endptr base >>= f) (r.clamped, r.endptr) ops ∧
        ((∀ o ∈ ops, o.Fits) ↔ ¬ (r.negative = true ∧ r.acc.toNat = 2 ^ 63)) := by
    intro f v hf hv hcond
    refine ⟨[] ++ ops, hrun.bind ?_, iff_of_true (by simpa using hops) hcond⟩
    rw [hf, hv]
    exact Runs.pure _
  unfold strtoll
  by_cases hov : r.overflow = true
  · have hall : r.acc.toNat = 2 ^ 64 - 1 := by rw [hover hov, BitVec.toNat_allOnes]
    apply hquiet (if_pos hov)
    · rw [Parsed.clamped, hall]
      split_ifs <;> omega
    · omega
  by_cases hneg : r.negative = true
  · by_cases hbig : llongMax + 1 < r.acc
    · apply hquiet ((if_neg hov).trans ((if_pos hneg).trans (if_pos hbig)))
      · rw [BitVec.lt_def, hmin] at hbig
        rw [Parsed.clamped, if_pos hneg]
        omega
      · rw [BitVec.lt_def, hmin] at hbig
        omega
    · have hsmall : r.acc.toNat ≤ 2 ^ 63 := by
        rw [BitVec.lt_def, hmin] at hbig
        omega
      refine ⟨[⟨64, -r.acc.toInt⟩] ++ ops, hrun.bind ?_, ?_⟩
      · have hvalue : (-r.acc.toInt).bmod (2 ^ 64) = r.clamped := by
          rw [Parsed.clamped, if_pos hneg, BitVec.toInt_eq_toNat_cond, Int.bmod_def]
          split_ifs <;> omega
        rw [if_neg hov, if_pos hneg, if_neg hbig]
        have hlast : Runs (signed 64 (-r.acc.toInt)) r.clamped [⟨64, -r.acc.toInt⟩] := by
          rw [← hvalue]
          exact Runs.signed _ _
        exact hlast.bind (f := fun v => pure (v, r.endptr)) (Runs.pure _)
      · have hlast : (SignedOp.mk 64 (-r.acc.toInt)).Fits ↔ r.acc.toNat ≠ 2 ^ 63 := by
          rw [SignedOp.Fits, BitVec.toInt_eq_toNat_cond]
          split_ifs <;> norm_num <;> omega
        rw [List.singleton_append, List.forall_mem_cons, hlast]
        tauto
  · have hcond : ¬ (r.negative = true ∧ r.acc.toNat = 2 ^ 63) := fun hc => hneg hc.1
    by_cases hbig : llongMax < r.acc
    · apply hquiet ((if_neg hov).trans ((if_neg hneg).trans (if_pos hbig))) _ hcond
      rw [BitVec.lt_def, hmax] at hbig
      rw [Parsed.clamped, if_neg hneg]
      omega
    · apply hquiet ((if_neg hov).trans ((if_neg hneg).trans (if_neg hbig))) _ hcond
      rw [BitVec.lt_def, hmax] at hbig
      rw [Parsed.clamped, if_neg hneg, BitVec.toInt_eq_toNat_of_lt (by omega)]
      omega

theorem strtoull_exactly {r : Parsed} {base : ℤ} (h : Exactly (strtoxMain isSigned nptr endptr base) r) :
    Exactly (strtoull isSigned nptr endptr base)
      (if r.overflow then BitVec.allOnes 64 else if r.negative then -r.acc else r.acc, r.endptr) := by
  apply h.bind
  split_ifs <;> exact Exactly.pure _

section Report

variable (N : Numeral)

theorem Numeral.toNat_parsed_acc : (N.parsed nptr endptr).acc.toNat = min N.magnitude (2 ^ 64 - 1) := by
  rw [parsed, BitVec.toNat_ofNat]
  omega

theorem Numeral.parsed_overflow :
    (N.parsed nptr endptr).overflow = true → (N.parsed nptr endptr).acc = BitVec.allOnes 64 := by
  intro h
  have hbig : 2 ^ 64 ≤ N.magnitude := by simpa [parsed] using h
  apply BitVec.eq_of_toNat_eq
  rw [N.toNat_parsed_acc, BitVec.toNat_allOnes]
  omega

theorem Numeral.clamped_parsed :
    (N.parsed nptr endptr).clamped = max (-2 ^ 63) (min (2 ^ 63 - 1) N.value) := by
  have hsign : (N.parsed nptr endptr).negative = N.negative := rfl
  rw [Parsed.clamped, N.toNat_parsed_acc, hsign, value]
  split_ifs <;> omega

theorem Numeral.toNat_ull :
    (if (N.parsed nptr endptr).overflow then BitVec.allOnes 64 else
      if (N.parsed nptr endptr).negative then -(N.parsed nptr endptr).acc
      else (N.parsed nptr endptr).acc).toNat =
    if 2 ^ 64 ≤ N.magnitude then 2 ^ 64 - 1
    else if N.negative then (2 ^ 64 - N.magnitude) % 2 ^ 64 else N.magnitude := by
  have hsign : (N.parsed nptr endptr).negative = N.negative := rfl
  have hover : (N.parsed nptr endptr).overflow = true ↔ 2 ^ 64 ≤ N.magnitude := decide_eq_true_iff
  simp only [hover, hsign]
  split_ifs with hbig hneg
  · exact BitVec.toNat_allOnes
  · rw [BitVec.toNat_neg, N.toNat_parsed_acc]
    omega
  · rw [N.toNat_parsed_acc]
    omega

theorem Numeral.magnitude_of_nil (h : N.digits = []) : N.magnitude = 0 := by
  rw [magnitude, h]
  rfl

end Report

/-- `strtoull` and `strtoll` read the grammar: nothing for an empty run of digits, and otherwise
the exact value, of `strtoull` modulo 2 ^ 64 if it is below 2 ^ 64 and the greatest number if
not, of `strtoll` clamped to the range of the type. -/
theorem strtoull_strtoll_read (isSigned : Bool) (nptr : Str) (endptr : Option Str) (base : ℕ)
    (hbase : base = 0 ∨ 2 ≤ base ∧ base ≤ 36) :
    let N := numeral nptr base
    let ull := (strtoull isSigned nptr endptr base).value
    let ll := (strtoll isSigned nptr endptr base).value
    (N.digits = [] → ull = (0, endptr.map fun _ => nptr) ∧ ll = (0, endptr.map fun _ => nptr)) ∧
    (N.digits ≠ [] → ull.2 = endptr.map (fun _ => N.rest) ∧ ll.2 = endptr.map (fun _ => N.rest) ∧
      (N.magnitude < 2 ^ 64 → ull.1.toNat =
        if N.negative then (2 ^ 64 - N.magnitude) % 2 ^ 64 else N.magnitude) ∧
      (2 ^ 64 ≤ N.magnitude → ull.1.toNat = 2 ^ 64 - 1) ∧
      ll.1 = max (-2 ^ 63) (min (2 ^ 63 - 1) N.value)) := by
  intro N ull ll
  have haccepted : AcceptedBase base := by
    unfold AcceptedBase
    omega
  have hmain := strtoxMain_exactly isSigned nptr endptr haccepted
  obtain ⟨ops, hrun, -⟩ := strtoll_runs hmain (Numeral.parsed_overflow _)
  have hll : ll = (max (-2 ^ 63) (min (2 ^ 63 - 1) N.value), endptr.map fun _ => N.stop nptr) := by
    rw [← N.clamped_parsed]
    exact hrun.value_eq
  have hull : ull = _ := (strtoull_exactly hmain).value_eq
  have hnat : ull.1.toNat = if 2 ^ 64 ≤ N.magnitude then 2 ^ 64 - 1
      else if N.negative then (2 ^ 64 - N.magnitude) % 2 ^ 64 else N.magnitude := by
    rw [hull]
    exact N.toNat_ull
  have hend : ull.2 = endptr.map fun _ => N.stop nptr := by
    rw [hull]
    rfl
  constructor
  · intro hnil
    have hzero := N.magnitude_of_nil hnil
    have hstop : N.stop nptr = nptr := if_pos hnil
    rw [hzero, if_neg (by omega)] at hnat
    refine ⟨Prod.ext (BitVec.eq_of_toNat_eq ?_) (by rw [hend, hstop]), ?_⟩
    · rw [hnat]
      split <;> rfl
    · rw [hll, hstop, Numeral.value, hzero]
      simp
  · intro hdigits
    have hstop : N.stop nptr = N.rest := if_neg hdigits
    refine ⟨by rw [hend, hstop], by rw [hll, hstop], ?_, ?_, by rw [hll]⟩
    · intro hsmall
      rw [hnat, if_neg (by omega)]
    · intro hbig
      rw [hnat, if_pos hbig]

/-- " -0xfg": white space, a sign, a prefix and one digit. -/
theorem strtoull_strtoll_read_example :
    (strtoull true [0x20, 0x2d, 0x30, 0x78, 0x66, 0x67] (some []) (0 : ℕ)).value.2 = some [0x67] ∧
      (strtoll true [0x20, 0x2d, 0x30, 0x78, 0x66, 0x67] (some []) (0 : ℕ)).value.1 = -15 := by
  obtain ⟨hstop, -, -, -, hvalue⟩ := (strtoull_strtoll_read true [0x20, 0x2d, 0x30, 0x78, 0x66, 0x67]
    (some []) 0 (Or.inl rfl)).2 (by decide)
  exact ⟨hstop, hvalue⟩

/-- The signed operations of `strtox_main` always fit; those of `strtoll` and `strtol` do unless
the string is a minus sign and digits of the value 2 ^ 63. -/
theorem signed_operations_fit_iff (isSigned : Bool) (nptr : Str) (endptr : Option Str) (base : ℤ) :
    (∀ o ∈ (strtoxMain isSigned nptr endptr base).ops, o.Fits) ∧
    ((∀ o ∈ (strtoll isSigned nptr endptr base).ops, o.Fits) ↔
      ¬ (AcceptedBase base ∧ (numeral nptr base.toNat).negative = true ∧
        (numeral nptr base.toNat).magnitude = 2 ^ 63)) ∧
    ((∀ o ∈ (strtol isSigned nptr endptr base).ops, o.Fits) ↔
      ¬ (AcceptedBase base ∧ (numeral nptr base.toNat).negative = true ∧
        (numeral nptr base.toNat).magnitude = 2 ^ 63)) := by
  rw [strtol]
  by_cases h : AcceptedBase base
  · obtain ⟨n, rfl⟩ : ∃ n : ℕ, base = n := by
      unfold AcceptedBase at h
      exact ⟨base.toNat, by omega⟩
    have hmain := strtoxMain_exactly isSigned nptr endptr h
    obtain ⟨ops, hrun, hfit⟩ := strtoll_runs hmain (Numeral.parsed_overflow _)
    have hiff : (∀ o ∈ (strtoll isSigned nptr endptr n).ops, o.Fits) ↔
        ¬ (AcceptedBase n ∧ (numeral nptr n).negative = true ∧ (numeral nptr n).magnitude = 2 ^ 63) := by
      rw [hrun.ops_eq, hfit, Numeral.toNat_parsed_acc]
      have hcut : min (numeral nptr n).magnitude (2 ^ 64 - 1) = 2 ^ 63 ↔
          (numeral nptr n).magnitude = 2 ^ 63 := by omega
      rw [hcut]
      exact not_congr ⟨fun hc => ⟨h, hc⟩, fun hc => hc.2⟩
    exact ⟨hmain.fits, hiff, hiff⟩
  · have hmain := strtoxMain_rejected isSigned nptr endptr h
    obtain ⟨ops, hrun, hfit⟩ := strtoll_runs hmain (by simp)
    have hall : ∀ o ∈ (strtoll isSigned nptr endptr base).ops, o.Fits := by
      rw [hrun.ops_eq, hfit]
      simp
    have hcond : ¬ (AcceptedBase base ∧ (numeral nptr base.toNat).negative = true ∧
        (numeral nptr base.toNat).magnitude = 2 ^ 63) := fun hc => h hc.1
    exact ⟨hmain.fits, iff_of_true hall hcond, iff_of_true hall hcond⟩

/-- "-9223372036854775808", the least `long long`: its negation leaves the type. -/
theorem strtoll_least_overflows :
    ∃ o ∈ (strtoll true [0x2d, 0x39, 0x32, 0x32, 0x33, 0x33, 0x37, 0x32, 0x30, 0x33, 0x36, 0x38, 0x35,
      0x34, 0x37, 0x37, 0x35, 0x38, 0x30, 0x38] none 10).ops, ¬ o.Fits := by
  decide +kernel

end Results

end NaiLongKernel.Libc
