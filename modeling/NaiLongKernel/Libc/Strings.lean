import Mathlib.Data.List.GetD
import NaiLongKernel.Libc.Memory

/-!
# The order of strings

A string stands in memory with a null byte after it. `strcmp`, `strncmp` and `memcmp` are
written with different loops; the numbers that they return have the signs of one order, the
lexicographic order of the bytes as unsigned numbers. The loop of `strcmp` has no counter
and gets fuel, of which the length of the first string is enough.
-/
namespace NaiLongKernel.Libc

open Foundation

def strcmp (m : Memory) : (fuel : ℕ) → (s1 s2 : Address) → Option ℤ
  | 0, _, _ => none
  | fuel+1, s1, s2 =>
    if m.val s1 ≠ 0 ∧ m.val s1 = m.val s2 then strcmp m fuel (s1 + 1) (s2 + 1)
    else some ((m.val s1).toNat - (m.val s2).toNat)

/-- The loop of `strncmp`: `n` turns at most. -/
def strncmpLoop (m : Memory) : (n : ℕ) → (s1 s2 : Address) → ℤ
  | 0, _, _ => 0
  | n+1, s1, s2 =>
    if m.val s1 ≠ m.val s2 then (m.val s1).toNat - (m.val s2).toNat
    else if m.val s1 = 0 then 0
    else strncmpLoop m n (s1 + 1) (s2 + 1)

def strncmp (m : Memory) (s1 s2 : Address) (n : BitVec 64) : ℤ :=
  if n = 0 then 0 else strncmpLoop m n.toNat s1 s2

/-- `while (n-- > 0 && *p) p++`. -/
def scanUp (m : Memory) : (n : ℕ) → (p : Address) → Address
  | 0, p => p
  | n+1, p => if m.val p ≠ 0 then scanUp m n (p + 1) else p

def strnlen (m : Memory) (s : Address) (n : BitVec 64) : BitVec 64 := scanUp m n.toNat s - s

def strncpy (dest src : Address) (n : BitVec 64) (m : Memory) : Address × Memory :=
  let size := strnlen m src n
  let m := if size ≠ n then (memset (dest + size) 0 (n - size) m).2 else m
  memcpy dest src size m

/-- The bytes of the string stand at `p`, with a null byte after them. -/
def IsString (m : Memory) : (p : Address) → List Byte → Prop
  | p, [] => m.val p = 0
  | p, b :: l => m.val p = b ∧ b ≠ 0 ∧ IsString m (p + 1) l

/-- The number has the sign of the comparison of the strings. -/
structure Orders (r : ℤ) (a b : List Byte) : Prop where
  lt : r < 0 ↔ a < b
  gt : 0 < r ↔ b < a

namespace Orders

variable {r r' : ℤ} {a b : List Byte} {x y : Byte}

theorem sign_eq (h : Orders r a b) (h' : Orders r' a b) : r.sign = r'.sign := by
  have hlt : r < 0 ↔ r' < 0 := h.lt.trans h'.lt.symm
  have hgt : 0 < r ↔ 0 < r' := h.gt.trans h'.gt.symm
  rcases lt_trichotomy r 0 with hr | hr | hr
  · rw [Int.sign_eq_neg_one_of_neg hr, Int.sign_eq_neg_one_of_neg (hlt.mp hr)]
  · have hr' : r' = 0 := by omega
    rw [hr, hr']
  · rw [Int.sign_eq_one_of_pos hr, Int.sign_eq_one_of_pos (hgt.mp hr)]

theorem refl (a : List Byte) : Orders 0 a a := ⟨by simp, by simp⟩

theorem cons (h : Orders r a b) (x : Byte) : Orders r (x :: a) (x :: b) := by
  constructor
  · rw [h.lt, List.cons_lt_cons_iff]
    simp
  · rw [h.gt, List.cons_lt_cons_iff]
    simp

theorem head (hlt : r < 0 ↔ x < y) (hgt : 0 < r ↔ y < x) (hne : x ≠ y) :
    Orders r (x :: a) (y :: b) := by
  constructor
  · rw [hlt, List.cons_lt_cons_iff]
    simp [hne]
  · rw [hgt, List.cons_lt_cons_iff]
    simp [hne.symm]

theorem left_nil (h : r < 0) : Orders r [] (y :: b) :=
  ⟨by simp [h], by simp [h.le]⟩

theorem right_nil (h : 0 < r) : Orders r (x :: a) [] :=
  ⟨by simp [h.le], by simp [h]⟩

end Orders

section Order

variable {m : Memory} {p q : Address} {a b : List Byte}

theorem byte_pos {x : Byte} (h : x ≠ 0) : 0 < x.toNat := by
  rw [Nat.pos_iff_ne_zero]
  intro h0
  exact h (BitVec.eq_of_toNat_eq h0)

theorem Orders.difference {x y : Byte} (hne : x ≠ y) :
    Orders ((x.toNat : ℤ) - y.toNat) (x :: a) (y :: b) := by
  apply Orders.head _ _ hne
  · rw [BitVec.lt_def]
    omega
  · rw [BitVec.lt_def]
    omega

theorem strcmp_orders (ha : IsString m p a) (hb : IsString m q b) :
    ∃ r, Orders r a b ∧ ∀ fuel, a.length < fuel → strcmp m fuel p q = some r := by
  induction a generalizing p q b with
  | nil =>
    have hp : m.val p = 0 := ha
    refine ⟨(m.val p).toNat - (m.val q).toNat, ?_, ?_⟩
    · rw [hp]
      cases b with
      | nil =>
        have hq : m.val q = 0 := hb
        rw [hq]
        exact Orders.refl []
      | cons y b =>
        have hpos := byte_pos hb.2.1
        apply Orders.left_nil
        rw [hb.1]
        simpa using hpos
    · intro fuel hfuel
      cases fuel with
      | zero => simp at hfuel
      | succ fuel => simp [strcmp, hp]
  | cons x a ih =>
    obtain ⟨hx, hx0, ha⟩ := ha
    by_cases heq : x = m.val q
    · cases b with
      | nil =>
        have hq : m.val q = 0 := hb
        exact absurd (heq.trans hq) hx0
      | cons y b =>
        obtain ⟨hy, -, hb⟩ := hb
        obtain ⟨r, hr, hrun⟩ := ih ha hb
        refine ⟨r, ?_, ?_⟩
        · rw [← hy, ← heq]
          exact hr.cons x
        · intro fuel hfuel
          cases fuel with
          | zero => simp at hfuel
          | succ fuel =>
            rw [strcmp, if_pos (by rw [hx]; exact ⟨hx0, heq⟩)]
            exact hrun fuel (by simpa using hfuel)
    · refine ⟨(m.val p).toNat - (m.val q).toNat, ?_, ?_⟩
      · rw [hx]
        cases b with
        | nil =>
          have hq : m.val q = 0 := hb
          have hpos := byte_pos hx0
          apply Orders.right_nil
          rw [hq]
          simpa using hpos
        | cons y b =>
          rw [hb.1] at heq ⊢
          exact Orders.difference heq
      · intro fuel hfuel
        cases fuel with
        | zero => simp at hfuel
        | succ fuel => rw [strcmp, if_neg (by rw [hx]; exact fun h => heq h.2)]

theorem strncmpLoop_orders (ha : IsString m p a) (hb : IsString m q b) (n : ℕ) :
    Orders (strncmpLoop m n p q) (a.take n) (b.take n) := by
  induction n generalizing p q a b with
  | zero => exact Orders.refl []
  | succ n ih =>
    rw [strncmpLoop]
    cases a with
    | nil =>
      have hp : m.val p = 0 := ha
      rw [hp]
      cases b with
      | nil =>
        have hq : m.val q = 0 := hb
        simpa [hq] using Orders.refl []
      | cons y b =>
        have hpos := byte_pos hb.2.1
        rw [if_pos (by rw [hb.1]; exact Ne.symm hb.2.1), hb.1, List.take_nil, List.take_succ_cons]
        apply Orders.left_nil
        simpa using hpos
    | cons x a =>
      obtain ⟨hx, hx0, ha⟩ := ha
      rw [hx]
      cases b with
      | nil =>
        have hq : m.val q = 0 := hb
        have hpos := byte_pos hx0
        rw [hq, if_pos hx0, List.take_nil, List.take_succ_cons]
        apply Orders.right_nil
        simpa using hpos
      | cons y b =>
        obtain ⟨hy, -, hb⟩ := hb
        rw [hy, List.take_succ_cons, List.take_succ_cons]
        split
        · rename_i hne
          exact Orders.difference hne
        · rename_i heq
          rw [not_not] at heq
          rw [← heq]
          exact (ih ha hb).cons x

theorem strncmp_orders (ha : IsString m p a) (hb : IsString m q b) (n : BitVec 64) :
    Orders (strncmp m p q n) (a.take n.toNat) (b.take n.toNat) := by
  rw [strncmp]
  split
  · rename_i hzero
    rw [hzero]
    exact Orders.refl []
  · exact strncmpLoop_orders ha hb n.toNat

/-- The null byte of the shorter string is compared as well. -/
theorem compareUp_orders (ha : IsString m p a) (hb : IsString m q b) :
    Orders (compareUp m (min a.length b.length + 1) p q) a b := by
  induction a generalizing p q b with
  | nil =>
    have hp : m.val p = 0 := ha
    rw [List.length_nil, Nat.zero_min, compareUp, hp]
    cases b with
    | nil =>
      have hq : m.val q = 0 := hb
      simpa [hq, compareUp] using Orders.refl []
    | cons y b =>
      have hpos := byte_pos hb.2.1
      rw [if_pos (by rw [hb.1]; exact Ne.symm hb.2.1), hb.1, if_pos (by rw [BitVec.lt_def]; exact hpos)]
      exact Orders.left_nil (by decide)
  | cons x a ih =>
    obtain ⟨hx, hx0, ha⟩ := ha
    rw [compareUp, hx]
    cases b with
    | nil =>
      have hq : m.val q = 0 := hb
      rw [hq, if_pos hx0, if_neg (by rw [BitVec.lt_def]; simp)]
      exact Orders.right_nil (by decide)
    | cons y b =>
      obtain ⟨hy, -, hb⟩ := hb
      rw [hy]
      split
      · rename_i hne
        apply Orders.head _ _ hne
        · split <;> simp_all
        · have hflip : ¬ x < y ↔ y < x := by
            rw [BitVec.not_lt]
            constructor
            · intro hle
              exact BitVec.lt_of_le_ne hle hne.symm
            · exact BitVec.le_of_lt
          split <;> simp_all
      · rename_i heq
        rw [not_not] at heq
        rw [← heq, List.length_cons, List.length_cons, Nat.add_min_add_right]
        exact (ih ha hb).cons x

end Order

section Copy

variable {m m' : Memory} {p q d : Address} {a : List Byte} {n : ℕ}

theorem IsString.val_offset (h : IsString m p a) {i : ℕ} (hi : i ≤ a.length) :
    m.val (offset p i) = a.getD i 0 := by
  induction a generalizing p i with
  | nil =>
    have hp : m.val p = 0 := h
    obtain rfl : i = 0 := by simpa using hi
    simpa using hp
  | cons x a ih =>
    cases i with
    | zero => simpa using h.1
    | succ i =>
      rw [offset_succ, ih h.2.2 (by simpa using hi)]
      simp

theorem scanUp_eq (h : IsString m p a) (n : ℕ) : scanUp m n p = offset p (min n a.length) := by
  induction n generalizing p a with
  | zero => simp [scanUp]
  | succ n ih =>
    rw [scanUp]
    cases a with
    | nil =>
      have hp : m.val p = 0 := h
      simp [hp]
    | cons x a =>
      obtain ⟨hx, hx0, ha⟩ := h
      rw [hx, if_pos hx0, ih ha, List.length_cons, Nat.add_min_add_right, offset_succ]

theorem strnlen_eq (h : IsString m p a) (n : BitVec 64) :
    (strnlen m p n).toNat = min n.toNat a.length := by
  have hlt : min n.toNat a.length < 2 ^ 64 := lt_of_le_of_lt (min_le_left _ _) n.isLt
  rw [strnlen, scanUp_eq h, offset, BitVec.add_comm, BitVec.add_sub_cancel, BitVec.toNat_ofNat,
    Nat.mod_eq_of_lt hlt]

theorem writes_copyUp (n : ℕ) (d s : Address) (m : Memory) :
    (copyUp n d s m).writes = (span d n).reverse ++ m.writes := by
  induction n generalizing d s m with
  | zero => rfl
  | succ n ih => simp [copyUp, ih, span_succ]

theorem writes_fillUp (v : Byte) (n : ℕ) (d : Address) (m : Memory) :
    (fillUp v n d m).writes = (span d n).reverse ++ m.writes := by
  induction n generalizing d m with
  | zero => rfl
  | succ n ih => simp [fillUp, ih, span_succ]

theorem fillUp_outside {v : Byte} {x : Address} (m : Memory) (hx : ∀ i < n, x ≠ offset d i) :
    (fillUp v n d m).val x = m.val x := by
  induction n generalizing d m with
  | zero => rfl
  | succ n ih =>
    rw [fillUp, ih]
    · have hxd : x ≠ d := by simpa using hx 0 (Nat.succ_pos n)
      simp [hxd]
    · intro i hi
      rw [← offset_succ]
      exact hx (i+1) (Nat.succ_lt_succ hi)

theorem fillUp_inside {v : Byte} (m : Memory) (hn : n ≤ 2 ^ 64) {i : ℕ} (hi : i < n) :
    (fillUp v n d m).val (offset d i) = v := by
  induction n generalizing d m i with
  | zero => omega
  | succ n ih =>
    rw [fillUp]
    cases i with
    | zero =>
      rw [fillUp_outside]
      · simp
      · intro j hj hd
        have hzero : 0 = j + 1 := (offset_inj d (by omega) (by omega)).mp (by rw [hd, offset_succ])
        omega
    | succ i =>
      rw [offset_succ]
      exact ih _ (by omega) (by omega)

theorem strncmpLoop_eq_zero (h : ∀ i < n, (∀ j < i, m.val (offset p j) ≠ 0) →
    m.val (offset p i) = m.val (offset q i)) : strncmpLoop m n p q = 0 := by
  induction n generalizing p q with
  | zero => rfl
  | succ n ih =>
    have hfirst : m.val p = m.val q := by simpa using h 0 (Nat.succ_pos n) (by simp)
    rw [strncmpLoop, if_neg (not_not.mpr hfirst)]
    split
    · rfl
    · rename_i hp
      apply ih
      intro i hi hj
      rw [← offset_succ, ← offset_succ]
      apply h (i+1) (Nat.succ_lt_succ hi)
      intro j hj'
      cases j with
      | zero => simpa using hp
      | succ j =>
        rw [offset_succ]
        exact hj j (by omega)

/-- `strncpy` into a buffer that the string does not reach: the bytes of the string and null
bytes after it, each written once. -/
theorem strncpy_copies (h : IsString m p a) {n : BitVec 64}
    (hsep : ∀ i < n.toNat, ∀ j ≤ a.length, offset d i ≠ offset p j) :
    (∀ i < n.toNat, (strncpy d p n m).2.val (offset d i) = a.getD i 0) ∧
    (∀ x, (∀ i < n.toNat, x ≠ offset d i) → (strncpy d p n m).2.val x = m.val x) ∧
    ∃ ws, (strncpy d p n m).2.writes = ws ++ m.writes ∧ ws.Perm (span d n.toNat) := by
  have hsize := strnlen_eq h n
  set size := strnlen m p n with hdef
  have hle : size.toNat ≤ n.toNat := by omega
  have hrest : (n - size).toNat = n.toNat - size.toNat := BitVec.toNat_sub_of_le (BitVec.le_def.mpr hle)
  have hbig : n.toNat < 2 ^ 64 := n.isLt
  -- the padding after the string
  obtain ⟨m₁, hm₁, hpad, hout, hlog⟩ : ∃ m₁ : Memory,
      (if size ≠ n then (memset (d + size) 0 (n - size) m).2 else m) = m₁ ∧
      (∀ i < n.toNat - size.toNat, m₁.val (offset d (size.toNat + i)) = 0) ∧
      (∀ x, (∀ i < n.toNat - size.toNat, x ≠ offset d (size.toNat + i)) → m₁.val x = m.val x) ∧
      m₁.writes = (span (offset d size.toNat) (n.toNat - size.toNat)).reverse ++ m.writes := by
    refine ⟨_, rfl, ?_⟩
    by_cases heq : size = n
    · have hnone : n.toNat - size.toNat = 0 := by rw [heq, Nat.sub_self]
      rw [if_neg (not_not.mpr heq), hnone]
      simp [span]
    · rw [if_pos heq]
      simp only [memset, hrest, ← offset_toNat d size]
      refine ⟨?_, ?_, writes_fillUp _ _ _ _⟩
      · intro i hi
        rw [← offset_offset]
        exact fillUp_inside m (by omega) hi
      · intro x hx
        apply fillUp_outside
        intro i hi
        rw [offset_offset]
        exact hx i hi
  have hcopy : (strncpy d p n m).2 = copyUp size.toNat d p m₁ := by
    simp only [strncpy, ← hdef, hm₁, memcpy]
  have hread : ∀ i < size.toNat, m₁.val (offset p i) = a.getD i 0 := by
    intro i hi
    rw [hout, h.val_offset (by omega)]
    intro j hj
    exact (hsep _ (by omega) _ (by omega)).symm
  rw [hcopy]
  refine ⟨?_, ?_, ?_⟩
  · intro i hi
    by_cases his : i < size.toNat
    · rw [copyUp_inside m₁ (by omega) _ his, hread i his]
      intro j hj _ hclash
      exact hsep 0 (by omega) j (by omega) (by rw [offset_zero, hclash])
    · have hnul : a.getD i 0 = 0 := List.getD_eq_default _ _ (by omega)
      have hplace : i = size.toNat + (i - size.toNat) := by omega
      rw [copyUp_outside, hnul, hplace, hpad _ (by omega)]
      intro j hj heq
      have hij := (offset_inj d (by omega) (by omega)).mp heq
      omega
  · intro x hx
    rw [copyUp_outside, hout]
    · intro i hi
      exact hx _ (by omega)
    · intro i hi
      exact hx i (by omega)
  · refine ⟨(span d size.toNat).reverse ++
      (span (offset d size.toNat) (n.toNat - size.toNat)).reverse, ?_, ?_⟩
    · rw [writes_copyUp, hlog, List.append_assoc]
    · have hall : span d n.toNat = span d size.toNat ++
          span (offset d size.toNat) (n.toNat - size.toNat) := by
        rw [← span_add]
        congr 1
        omega
      rw [hall]
      exact (List.reverse_perm _).append (List.reverse_perm _)

theorem strncmp_strncpy (h : IsString m p a) {n : BitVec 64}
    (hsep : ∀ i < n.toNat, ∀ j ≤ a.length, offset d i ≠ offset p j) :
    strncmp (strncpy d p n m).2 d p n = 0 := by
  obtain ⟨hin, hout, -⟩ := strncpy_copies h hsep
  rw [strncmp]
  split
  · rfl
  · apply strncmpLoop_eq_zero
    intro i hi hbefore
    have hia : i ≤ a.length := by
      by_contra hlong
      have hnul := hbefore a.length (by omega)
      rw [hin _ (by omega)] at hnul
      simp at hnul
    rw [hin i hi, hout, h.val_offset hia]
    intro j hj
    exact (hsep j hj i hia).symm

end Copy

/-- `strcmp` returns and has the sign of the lexicographic order; `strncmp` has the sign of
`strcmp` on the strings cut after `n` bytes; when `n` exceeds both lengths it and `memcmp` on the
shorter string with its null byte have the sign of `strcmp`; and `strncpy` writes each byte of
a buffer of `n` bytes once, the string and null bytes after it, which then compares equal. -/
theorem string_comparisons_agree {m : Memory} {a b : Address} {l k : List Byte}
    (ha : IsString m a l) (hb : IsString m b k) (n : BitVec 64) :
    (∃ r, Orders r l k ∧ (∀ fuel, l.length < fuel → strcmp m fuel a b = some r) ∧
      (l.length < n.toNat → k.length < n.toNat → (strncmp m a b n).sign = r.sign ∧
        (memcmp a b (BitVec.ofNat 64 (min l.length k.length + 1)) m).sign = r.sign)) ∧
    (∀ (m' : Memory) (a' b' : Address), IsString m' a' (l.take n.toNat) → IsString m' b' (k.take n.toNat) →
      ∃ r, (∀ fuel, l.length < fuel → strcmp m' fuel a' b' = some r) ∧
        (strncmp m a b n).sign = r.sign) ∧
    ∀ d : Address, (∀ i < n.toNat, ∀ j ≤ l.length, offset d i ≠ offset a j) →
      strncmp (strncpy d a n m).2 d a n = 0 ∧
      (∀ i < n.toNat, (strncpy d a n m).2.val (offset d i) = l.getD i 0) ∧
      (∀ x, (∀ i < n.toNat, x ≠ offset d i) → (strncpy d a n m).2.val x = m.val x) ∧
      ∃ ws, (strncpy d a n m).2.writes = ws ++ m.writes ∧ ws.Perm (span d n.toNat) := by
  refine ⟨?_, ?_, ?_⟩
  · obtain ⟨r, hr, hrun⟩ := strcmp_orders ha hb
    refine ⟨r, hr, hrun, ?_⟩
    intro hl hk
    constructor
    · have hn := strncmp_orders ha hb n
      rw [List.take_of_length_le hl.le, List.take_of_length_le hk.le] at hn
      exact hn.sign_eq hr
    · have hcount : (BitVec.ofNat 64 (min l.length k.length + 1)).toNat = min l.length k.length + 1 := by
        rw [BitVec.toNat_ofNat]
        apply Nat.mod_eq_of_lt
        omega
      rw [memcmp, hcount]
      exact (compareUp_orders ha hb).sign_eq hr
  · intro m' a' b' ha' hb'
    obtain ⟨r, hr, hrun⟩ := strcmp_orders ha' hb'
    refine ⟨r, ?_, (strncmp_orders ha hb n).sign_eq hr⟩
    intro fuel hfuel
    apply hrun
    rw [List.length_take]
    omega
  · intro d hsep
    exact ⟨strncmp_strncpy ha hsep, strncpy_copies ha hsep⟩

/-- Two strings, the first with a byte above 0x7F, and a copy into a buffer of four bytes. -/
theorem string_comparisons_agree_example :
    let m : Memory := ⟨fun a => if a = 0x1000 then 0x61 else if a = 0x1001 then 0xe4 else
      if a = 0x2000 then 0x61 else if a = 0x2001 then 0x62 else 0, []⟩
    (∃ r, strcmp m 3 0x1000 0x2000 = some r ∧ 0 < r ∧ (strncmp m 0x1000 0x2000 3).sign = r.sign) ∧
      strncmp (strncpy 0x3000 0x1000 4 m).2 0x3000 0x1000 4 = 0 := by
  intro m
  have ha : IsString m 0x1000 [0x61, 0xe4] := by simp [IsString, m]
  have hb : IsString m 0x2000 [0x61, 0x62] := by simp [IsString, m]
  obtain ⟨⟨r, hr, hrun, hlong⟩, -, -⟩ := string_comparisons_agree ha hb 3
  obtain ⟨-, -, hcopy⟩ := string_comparisons_agree ha hb 4
  refine ⟨⟨r, hrun 3 (by decide), hr.gt.mpr (by decide), (hlong (by decide) (by decide)).1⟩, ?_⟩
  exact (hcopy 0x3000 (by decide)).1

end NaiLongKernel.Libc
