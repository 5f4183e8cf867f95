import NaiLongKernel.Foundation.Reached
import NaiLongKernel.Libc.Integers

/-!
# The loops of strtod

`strtod` as a machine: a point of the control for each loop, with the variables that live
there, and a step for each turn of a loop. The floating-point operations are parameters. The
exponent is an `int` that wraps and is shifted arithmetically; the last loop ends for every
exponent that is not negative and for no other.
-/
namespace NaiLongKernel.Libc

open Foundation

/-- The operations of `double` that occur. -/
structure Doubles (D : Type) where
  ofInt : ℤ → D
  tenth : D
  add : D → D → D
  mul : D → D → D
  div : D → D → D

namespace Strtod

inductive Point (D : Type) where
  | spaces (s : Str)
  | whole (s : Str) (sign : ℤ) (any : Bool) (acc : D)
  | fraction (s : Str) (sign : ℤ) (any : Bool) (acc k : D)
  | exponent (eptr : Str) (sign : ℤ) (acc : D) (esign : ℤ) (exp : BitVec 32)
  | power (s : Str) (sign : ℤ) (acc : D) (esign : ℤ) (exp : BitVec 32) (p b : D)
  | returned (endptr : Option Str) (value : D)
deriving DecidableEq

section Machine

variable {D : Type} (F : Doubles D) (isSigned : Bool) (nptr : Str) (endptr : Option Str)

def finish (s : Str) (sign : ℤ) (any : Bool) (acc : D) : Point D :=
  .returned (endptr.map fun _ => if any then s else nptr) (F.mul (F.ofInt sign) acc)

/-- After the digits: an exponent if there is one. -/
def afterDigits (s : Str) (sign : ℤ) (any : Bool) (acc : D) : Point D :=
  if any ∧ (charAt isSigned s 0 = 0x65 ∨ charAt isSigned s 0 = 0x45) then
    let (minus, eptr) := skipSign isSigned s.tail
    if isdigit (charAt isSigned eptr 0) then .exponent eptr sign acc (if minus then -1 else 1) 0
    else finish F nptr endptr s sign any acc
  else finish F nptr endptr s sign any acc

/-- One turn of the loop at which the control stands, or the way from there to the next. -/
def step : Point D → Point D
  | .spaces s =>
    if isspace (charAt isSigned s 0) then .spaces s.tail
    else
      let (minus, s) := skipSign isSigned s
      .whole s (if minus then -1 else 1) false (F.ofInt 0)
  | .whole s sign any acc =>
    if isdigit (charAt isSigned s 0) then
      .whole s.tail sign true (F.add (F.mul acc (F.ofInt 10)) (F.ofInt (charAt isSigned s 0 - 0x30)))
    else if charAt isSigned s 0 = 0x2e then .fraction s.tail sign any acc F.tenth
    else afterDigits F isSigned nptr endptr s sign any acc
  | .fraction s sign any acc k =>
    if isdigit (charAt isSigned s 0) then
      .fraction s.tail sign true (F.add acc (F.mul (F.ofInt (charAt isSigned s 0 - 0x30)) k))
        (F.mul k F.tenth)
    else afterDigits F isSigned nptr endptr s sign any acc
  | .exponent eptr sign acc esign exp =>
    if isdigit (charAt isSigned eptr 0) then
      .exponent eptr.tail sign acc esign (exp * 10 + BitVec.ofInt 32 (charAt isSigned eptr 0 - 0x30))
    else .power eptr sign acc esign exp (F.ofInt 1) (F.ofInt 10)
  | .power s sign acc esign exp p b =>
    if exp ≠ 0 then
      .power s sign acc esign (exp.sshiftRight 1) (if exp &&& 1 ≠ 0 then F.mul p b else p) (F.mul b b)
    else finish F nptr endptr s sign true (if 0 < esign then F.mul acc p else F.div acc p)
  | .returned endptr value => .returned endptr value

end Machine

/-- The exponent that is held at a point. -/
def Point.exp {D : Type} : Point D → Option (BitVec 32)
  | .exponent _ _ _ _ exp => some exp
  | .power _ _ _ _ exp _ _ => some exp
  | _ => none

def Point.Returned {D : Type} (c : Point D) : Prop := ∃ endptr value, c = .returned endptr value

/-- The exponent is not negative. -/
def Point.ExpNonneg {D : Type} (c : Point D) : Prop := ∀ e ∈ c.exp, 0 ≤ e.toInt

/-- The digits of an exponent at `s`, none without digits before it. -/
def exponentPart (any : Bool) (s : Str) : List ℕ :=
  if any = true ∧ (s.head? = some 0x65 ∨ s.head? = some 0x45) then
    ((readSign s.tail).2.takeWhile (isDigitBelow 10)).map digitValue
  else []

/-- The digits of the exponent after an optional fraction. -/
def fractionPart (any : Bool) (s : Str) : List ℕ :=
  if s.head? = some 0x2e then
    exponentPart (any || !(s.tail.takeWhile (isDigitBelow 10)).isEmpty) (s.tail.dropWhile (isDigitBelow 10))
  else exponentPart any s

/-- The digits of the exponent of a string, none if it has no exponent. -/
def exponentDigits (nptr : Str) : List ℕ :=
  let s := (readSign (nptr.dropWhile spaceByte)).2
  fractionPart (!(s.takeWhile (isDigitBelow 10)).isEmpty) (s.dropWhile (isDigitBelow 10))

/-- No prefix of the digits has a value with the sign bit of an `int` set. -/
def StaysPositive (ds : List ℕ) : Prop :=
  ∀ k, Nat.ofDigits 10 (ds.take k).reverse % 2 ^ 32 < 2 ^ 31

section Scan

variable {isSigned : Bool} {b : Byte} {s : Str}

theorem isdigit_charToInt (isSigned : Bool) (b : Byte) :
    isdigit (charToInt isSigned b) = isDigitBelow 10 b := by
  have h := charToInt_cases isSigned b
  rw [Bool.eq_iff_iff, isDigitBelow_eq_true]
  simp only [isdigit, digitValue, Bool.and_eq_true, decide_eq_true_eq]
  split_ifs <;> omega

theorem takeWhile_eq_nil (h : ¬ isdigit (charAt isSigned s 0) = true) :
    s.takeWhile (isDigitBelow 10) = [] := by
  cases s with
  | nil => rfl
  | cons b s =>
    have hread : charAt isSigned (b :: s) 0 = charToInt isSigned b := rfl
    rw [hread, isdigit_charToInt] at h
    exact List.takeWhile_cons_of_neg h

theorem charToInt_sub_of_digit (h : isDigitBelow 10 b = true) :
    charToInt isSigned b - 0x30 = digitValue b := by
  have hread := charToInt_cases isSigned b
  rw [isDigitBelow_eq_true] at h
  revert h
  rw [digitValue]
  split_ifs <;> omega

theorem charAt_zero_eq (x : Byte) (hx : x.toNat < 0x80) (hx0 : x ≠ 0) :
    charAt isSigned s 0 = x.toNat ↔ s.head? = some x := by
  cases s with
  | nil =>
    have hpos : x.toNat ≠ 0 := fun h => hx0 (BitVec.eq_of_toNat_eq h)
    simp [charAt]
    omega
  | cons b s => simp [charAt, charToInt_eq_iff x hx]

end Scan

section Runs

variable {D : Type} {F : Doubles D} {isSigned : Bool} {nptr : Str} {endptr : Option Str}

/-- The machine returns, and the exponent is at no point negative. -/
def Safe (F : Doubles D) (isSigned : Bool) (nptr : Str) (endptr : Option Str) (c : Point D) : Prop :=
  Settles (step F isSigned nptr endptr) Point.Returned Point.ExpNonneg c

theorem safe_iff (c : Point D) : Safe F isSigned nptr endptr c ↔
    c.ExpNonneg ∧ Safe F isSigned nptr endptr (step F isSigned nptr endptr c) := by
  apply settles_iff
  rintro ⟨e, v, rfl⟩
  exact ⟨e, v, rfl⟩

theorem safe_step {c : Point D} (hexp : c.exp = none) {c' : Point D}
    (hstep : step F isSigned nptr endptr c = c') :
    Safe F isSigned nptr endptr c ↔ Safe F isSigned nptr endptr c' := by
  rw [safe_iff, hstep]
  simp [Point.ExpNonneg, hexp]

theorem safe_finish (s : Str) (sign : ℤ) (any : Bool) (acc : D) :
    Safe F isSigned nptr endptr (finish F nptr endptr s sign any acc) :=
  settles_of_fixed rfl ⟨_, _, rfl⟩ (by simp [Point.ExpNonneg, Point.exp, finish])

theorem toInt_nonneg_iff (e : BitVec 32) : 0 ≤ e.toInt ↔ e.toNat < 2 ^ 31 := by
  have he : e.toNat < 2 ^ 32 := e.isLt
  rw [BitVec.toInt_eq_toNat_cond]
  split_ifs <;> omega

theorem toNat_sshiftRight_one {e : BitVec 32} (he : e.toNat < 2 ^ 31) :
    (e.sshiftRight 1).toNat = e.toNat / 2 := by
  have hmsb : e.msb = false := by
    rw [BitVec.msb_eq_decide]
    simpa using he
  rw [BitVec.sshiftRight_eq_of_msb_false hmsb, BitVec.toNat_ushiftRight, Nat.shiftRight_eq_div_pow,
    pow_one]

theorem safe_power (s : Str) (sign : ℤ) (acc : D) (esign : ℤ) (exp : BitVec 32) (p b : D) :
    Safe F isSigned nptr endptr (.power s sign acc esign exp p b) ↔ exp.toNat < 2 ^ 31 := by
  have hnow : (Point.power s sign acc esign exp p b).ExpNonneg ↔ exp.toNat < 2 ^ 31 := by
    simp [Point.ExpNonneg, Point.exp, toInt_nonneg_iff]
  refine ⟨fun h => hnow.mp ((safe_iff _).mp h).1, ?_⟩
  intro h
  -- by induction on the exponent, which the shift halves
  induction hn : exp.toNat using Nat.strong_induction_on generalizing exp p b with
  | h n ih =>
    subst hn
    rw [safe_iff, hnow, step]
    refine ⟨h, ?_⟩
    split
    · rename_i hexp
      have hpos : exp.toNat ≠ 0 := fun h0 => hexp (BitVec.eq_of_toNat_eq h0)
      have hhalf := toNat_sshiftRight_one h
      exact ih _ (by omega) _ _ _ (by simp [Point.ExpNonneg, Point.exp, toInt_nonneg_iff])
        (by omega) rfl
    · exact safe_finish _ _ _ _

theorem safe_exponent (s : Str) (sign : ℤ) (acc : D) (esign : ℤ) (v : ℕ) :
    Safe F isSigned nptr endptr (.exponent s sign acc esign (BitVec.ofNat 32 v)) ↔
      ∀ k, (((s.takeWhile (isDigitBelow 10)).map digitValue).take k).foldl (fun v d => d + 10 * v) v
        % 2 ^ 32 < 2 ^ 31 := by
  have hnow : ∀ s v, (Point.exponent s sign acc esign (BitVec.ofNat 32 v)).ExpNonneg ↔
      v % 2 ^ 32 < 2 ^ 31 := by
    intro s v
    simp [Point.ExpNonneg, Point.exp, toInt_nonneg_iff]
  induction s generalizing v with
  | nil =>
    rw [safe_iff, hnow]
    simp [step, charAt, isdigit, safe_power]
  | cons b s ih =>
    by_cases hb : isDigitBelow 10 b = true
    · have hnext : step F isSigned nptr endptr (.exponent (b :: s) sign acc esign (BitVec.ofNat 32 v)) =
          .exponent s sign acc esign (BitVec.ofNat 32 (digitValue b + 10 * v)) := by
        have hread : charAt isSigned (b :: s) 0 = charToInt isSigned b := rfl
        rw [step, hread, isdigit_charToInt, if_pos hb, charToInt_sub_of_digit hb, BitVec.ofInt_natCast,
          Nat.add_comm, BitVec.ofNat_add, BitVec.ofNat_mul, BitVec.mul_comm]
        rfl
      rw [safe_iff, hnow, hnext, List.takeWhile_cons_of_pos hb, List.map_cons]
      constructor
      · rintro ⟨hv, hrest⟩ k
        cases k with
        | zero => exact hv
        | succ k => exact (ih _).mp hrest k
      · intro h
        exact ⟨h 0, (ih _).mpr fun k => h (k+1)⟩
    · have hread : charAt isSigned (b :: s) 0 = charToInt isSigned b := rfl
      rw [safe_iff, hnow, step, hread, isdigit_charToInt, if_neg hb, safe_power,
        List.takeWhile_cons_of_neg hb]
      simp

theorem safe_exponent_zero (s : Str) (sign : ℤ) (acc : D) (esign : ℤ) :
    Safe F isSigned nptr endptr (.exponent s sign acc esign 0) ↔
      StaysPositive ((s.takeWhile (isDigitBelow 10)).map digitValue) := by
  have h : Safe F isSigned nptr endptr (.exponent s sign acc esign (BitVec.ofNat 32 0)) ↔ _ :=
    safe_exponent s sign acc esign 0
  simp only [StaysPositive, Nat.ofDigits_eq_foldr, List.foldr_reverse, Nat.cast_id]
  exact h

theorem staysPositive_nil : StaysPositive [] := by
  intro k
  simp

theorem safe_afterDigits (s : Str) (sign : ℤ) (any : Bool) (acc : D) :
    Safe F isSigned nptr endptr (afterDigits F isSigned nptr endptr s sign any acc) ↔
      StaysPositive (exponentPart any s) := by
  have he : charAt isSigned s 0 = 0x65 ↔ s.head? = some 0x65 := charAt_zero_eq 0x65 (by decide) (by decide)
  have hE : charAt isSigned s 0 = 0x45 ↔ s.head? = some 0x45 := charAt_zero_eq 0x45 (by decide) (by decide)
  simp only [afterDigits, exponentPart, he, hE, skipSign_eq]
  by_cases hexp : any = true ∧ (s.head? = some 0x65 ∨ s.head? = some 0x45)
  · rw [if_pos hexp, if_pos hexp]
    generalize readSign s.tail = sign
    obtain ⟨minus, eptr⟩ := sign
    simp only
    split
    · exact safe_exponent_zero _ _ _ _
    · rename_i hdigit
      rw [takeWhile_eq_nil hdigit]
      exact iff_of_true (safe_finish _ _ _ _) staysPositive_nil
  · rw [if_neg hexp, if_neg hexp]
    exact iff_of_true (safe_finish _ _ _ _) staysPositive_nil

theorem safe_fraction (s : Str) (sign : ℤ) (any : Bool) (acc k : D) :
    Safe F isSigned nptr endptr (.fraction s sign any acc k) ↔
      StaysPositive (exponentPart (any || !(s.takeWhile (isDigitBelow 10)).isEmpty)
        (s.dropWhile (isDigitBelow 10))) := by
  induction s generalizing any acc k with
  | nil =>
    have hstop : isdigit (charAt isSigned [] 0) = false := by simp [charAt, isdigit]
    rw [safe_step rfl (by rw [step, hstop, if_neg (by simp)]), safe_afterDigits]
    simp
  | cons b s ih =>
    have hread : charAt isSigned (b :: s) 0 = charToInt isSigned b := rfl
    by_cases hb : isDigitBelow 10 b = true
    · rw [safe_step rfl (by rw [step, hread, isdigit_charToInt, if_pos hb]), List.tail_cons, ih]
      simp [hb]
    · rw [safe_step rfl (by rw [step, hread, isdigit_charToInt, if_neg hb]), safe_afterDigits]
      simp [hb]

theorem safe_afterWhole (s : Str) (sign : ℤ) (any : Bool) (acc : D) :
    Safe F isSigned nptr endptr (if charAt isSigned s 0 = 0x2e then .fraction s.tail sign any acc F.tenth
      else afterDigits F isSigned nptr endptr s sign any acc) ↔ StaysPositive (fractionPart any s) := by
  have hdot : charAt isSigned s 0 = 0x2e ↔ s.head? = some 0x2e := charAt_zero_eq 0x2e (by decide) (by decide)
  simp only [fractionPart, hdot]
  split_ifs
  · exact safe_fraction _ _ _ _ _
  · exact safe_afterDigits _ _ _ _

theorem safe_whole (s : Str) (sign : ℤ) (any : Bool) (acc : D) :
    Safe F isSigned nptr endptr (.whole s sign any acc) ↔
      StaysPositive (fractionPart (any || !(s.takeWhile (isDigitBelow 10)).isEmpty)
        (s.dropWhile (isDigitBelow 10))) := by
  induction s generalizing any acc with
  | nil =>
    have hstop : isdigit (charAt isSigned [] 0) = false := by simp [charAt, isdigit]
    rw [safe_step rfl (by rw [step, hstop, if_neg (by simp)]), safe_afterWhole]
    simp
  | cons b s ih =>
    have hread : charAt isSigned (b :: s) 0 = charToInt isSigned b := rfl
    by_cases hb : isDigitBelow 10 b = true
    · rw [safe_step rfl (by rw [step, hread, isdigit_charToInt, if_pos hb]), List.tail_cons, ih]
      simp [hb]
    · rw [safe_step rfl (by rw [step, hread, isdigit_charToInt, if_neg hb]), ← hread, safe_afterWhole]
      simp [hb]

theorem safe_spaces (s : Str) :
    Safe F isSigned nptr endptr (.spaces s) ↔ StaysPositive (exponentDigits s) := by
  induction s with
  | nil =>
    have hstop : isspace (charAt isSigned [] 0) = false := by simp [charAt, isspace]
    rw [safe_step rfl (by rw [step, hstop, if_neg (by simp)]), skipSign_eq, safe_whole]
    simp [exponentDigits]
  | cons b s ih =>
    have hread : charAt isSigned (b :: s) 0 = charToInt isSigned b := rfl
    by_cases hb : spaceByte b = true
    · rw [safe_step rfl (by rw [step, hread, isspace_charToInt, if_pos hb]), List.tail_cons, ih]
      simp [exponentDigits, hb]
    · rw [safe_step rfl (by rw [step, hread, isspace_charToInt, if_neg hb]), skipSign_eq, safe_whole]
      simp [exponentDigits, hb]

theorem Point.Returned.iterate {c : Point D} (h : c.Returned) (k : ℕ) :
    ((step F isSigned nptr endptr)^[k] c).Returned := by
  obtain ⟨e, v, rfl⟩ := h
  rw [Function.iterate_fixed rfl]
  exact ⟨e, v, rfl⟩

theorem power_never_returns {exp : BitVec 32} (hexp : exp.toInt < 0) (s : Str) (sign : ℤ) (acc : D)
    (esign : ℤ) (p b : D) (n : ℕ) :
    ¬ ((step F isSigned nptr endptr)^[n] (.power s sign acc esign exp p b)).Returned := by
  apply not_done_of_invariant (I := fun c => ∃ e p b, e.toInt < 0 ∧ c = .power s sign acc esign e p b)
  · exact ⟨exp, p, b, hexp, rfl⟩
  · rintro c ⟨e, p, b, he, rfl⟩
    have hne : e ≠ 0 := by
      rintro rfl
      simp at he
    rw [step, if_pos hne]
    refine ⟨_, _, _, ?_, rfl⟩
    rw [BitVec.toInt_sshiftRight, Int.shiftRight_eq_div_pow]
    omega
  · rintro c ⟨e, p, b, -, rfl⟩ ⟨endptr, value, hc⟩
    cases hc

end Runs

/-- `strtod` returns and its exponent is at no point negative, exactly if no prefix of the
exponent's digits has a value whose bit 31 is set. -/
theorem strtod_settles_iff {D : Type} (F : Doubles D) (isSigned : Bool) (nptr : Str)
    (endptr : Option Str) :
    ((∃ n, ((step F isSigned nptr endptr)^[n] (.spaces nptr)).Returned) ∧
      ∀ n, ((step F isSigned nptr endptr)^[n] (.spaces nptr)).ExpNonneg) ↔
    ∀ k, Nat.ofDigits 10 ((exponentDigits nptr).take k).reverse % 2 ^ 32 < 2 ^ 31 :=
  safe_spaces nptr

/-- "1e2147483648": the exponent wraps to the least `int`, and the last loop does not end. -/
theorem strtod_wrapped_exponent :
    let F : Doubles Unit := ⟨fun _ => (), (), fun _ _ => (), fun _ _ => (), fun _ _ => ()⟩
    let nptr : Str := [0x31, 0x65, 0x32, 0x31, 0x34, 0x37, 0x34, 0x38, 0x33, 0x36, 0x34, 0x38]
    (∀ n, ¬ ((step F true nptr none)^[n] (.spaces nptr)).Returned) ∧
      ¬ ((step F true nptr none)^[14] (.spaces nptr)).ExpNonneg := by
  intro F nptr
  have hreach : (step F true nptr none)^[14] (.spaces nptr) = .power [] 1 () 1 0x80000000 () () := by
    decide +kernel
  refine ⟨?_, ?_⟩
  · intro n hn
    have hlater : ((step F true nptr none)^[14] ((step F true nptr none)^[n] (.spaces nptr))).Returned :=
      hn.iterate 14
    rw [← Function.iterate_add_apply, Nat.add_comm, Function.iterate_add_apply, hreach] at hlater
    exact power_never_returns (by decide) _ _ _ _ _ _ n hlater
  · rw [hreach]
    intro h
    exact absurd (h 0x80000000 rfl) (by decide)

end Strtod

end NaiLongKernel.Libc
