import NaiLongKernel.Foundation.SignedArithmetic
import NaiLongKernel.Libc.Memory

/-!
# Character classes

A pointer into a string is what is left of the string from there; after its last byte stands
a null byte. A byte is read as a `char`, which is signed on some of the machines and unsigned
on others, and widened to `int`: the class tests see a negative number for the upper half of
the bytes in the first case.
-/
namespace NaiLongKernel.Libc

open Foundation

abbrev Str := List Byte

/-- A byte read as a `char` and widened to `int`. -/
def charToInt (isSigned : Bool) (b : Byte) : ℤ := if isSigned then b.toInt else b.toNat

/-- `s[i]`. -/
def charAt (isSigned : Bool) (s : Str) (i : ℕ) : ℤ := charToInt isSigned (s.getD i 0)

def isdigit (c : ℤ) : Bool := 0x30 ≤ c && c ≤ 0x39

def islower (c : ℤ) : Bool := 0x61 ≤ c && c ≤ 0x7a

def isupper (c : ℤ) : Bool := 0x41 ≤ c && c ≤ 0x5a

def isalpha (c : ℤ) : Bool := islower c || isupper c

def isspace (c : ℤ) : Bool :=
  c == 0x20 || c == 0x0c || c == 0x0a || c == 0x0d || c == 0x09 || c == 0x0b

def isxdigit (c : ℤ) : Bool :=
  isdigit c || (0x61 ≤ c && c ≤ 0x66) || (0x41 ≤ c && c ≤ 0x46)

def toupper (c : ℤ) : Traced ℤ := if islower c then signed 32 (c - 0x20) else pure c

/-- `while (isspace(*s)) s++`. -/
def skipSpaces (isSigned : Bool) : Str → Str
  | [] => []
  | b :: s => if isspace (charToInt isSigned b) then skipSpaces isSigned s else b :: s

/-- The optional sign: whether it is a minus, and the string after it. -/
def skipSign (isSigned : Bool) (s : Str) : Bool × Str :=
  if charAt isSigned s 0 = 0x2d then (true, s.tail)
  else if charAt isSigned s 0 = 0x2b then (false, s.tail)
  else (false, s)

/-- White space, by the value of the byte. -/
def spaceByte (b : Byte) : Bool := b.toNat == 0x20 || (0x09 ≤ b.toNat && b.toNat ≤ 0x0d)

section

variable {isSigned : Bool} {b : Byte} {s : Str}

/-- Below 0x80 the two readings of a byte agree, above it neither is an ASCII character. -/
theorem charToInt_cases (isSigned : Bool) (b : Byte) :
    charToInt isSigned b = b.toNat ∧ b.toNat < 0x80 ∨
      0x80 ≤ b.toNat ∧ (charToInt isSigned b < 0 ∨ 0x80 ≤ charToInt isSigned b) := by
  have hb : b.toNat < 256 := b.isLt
  cases isSigned with
  | true =>
    have hread : charToInt true b = if 2 * b.toNat < 2 ^ 8 then (b.toNat : ℤ) else b.toNat - (2 ^ 8 : ℕ) :=
      BitVec.toInt_eq_toNat_cond b
    rw [hread]
    split <;> omega
  | false =>
    have hread : charToInt false b = b.toNat := rfl
    omega

theorem charToInt_eq_iff (x : Byte) (hx : x.toNat < 0x80) :
    charToInt isSigned b = x.toNat ↔ b = x := by
  have h := charToInt_cases isSigned b
  rw [← BitVec.toNat_inj]
  omega

@[simp] theorem charToInt_nul (isSigned : Bool) : charToInt isSigned 0#8 = 0 := by
  cases isSigned <;> rfl

theorem isspace_charToInt (isSigned : Bool) (b : Byte) :
    isspace (charToInt isSigned b) = spaceByte b := by
  have h := charToInt_cases isSigned b
  rw [Bool.eq_iff_iff]
  simp only [isspace, spaceByte, Bool.or_eq_true, Bool.and_eq_true, beq_iff_eq, decide_eq_true_eq]
  omega

theorem skipSpaces_eq (isSigned : Bool) (s : Str) : skipSpaces isSigned s = s.dropWhile spaceByte := by
  induction s with
  | nil => rfl
  | cons b s ih => rw [skipSpaces, isspace_charToInt, List.dropWhile_cons, ih]

end

end NaiLongKernel.Libc
