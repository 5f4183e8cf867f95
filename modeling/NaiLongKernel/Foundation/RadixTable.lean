import Mathlib.Data.Set.Lattice
import Mathlib.Tactic
import Mathlib.Order.CompletePartialOrder

/-!
# Multi-level tables in memory

A table is a row of words; an entry of an inner table that decodes to an address
points to a table one level below, and the entries of the bottom tables are the
leaves. The tree a root stands for is a value of its own, and `Rep` says that the
memory holds it. Its footprint is the set of its tables; `Sep` says that no table
is used twice. Writes outside the footprint keep the tree, and a child can be
replaced as long as the new one shares no table with its siblings.
-/
namespace NaiLongKernel.Foundation.Radix

/-- Words, how they point to tables, and the word that fills a new table. -/
structure Format (A W : Type) where
  arity : ℕ
  decode : W → Option A
  blank : W
  decode_blank : decode blank = none

/-- Trees with `n` levels of inner tables above the leaf tables. -/
def Tree (A W : Type) : ℕ → Type
  | 0 => ℕ → W
  | n+1 => ℕ → Option (A × Tree A W n)

variable {A W : Type}

namespace Tree

variable {n : ℕ}

/-- The words of a leaf table. -/
def row (T : Tree A W 0) : ℕ → W := T

/-- The children of an inner table, each with the address of its table. -/
def child (T : Tree A W (n+1)) : ℕ → Option (A × Tree A W n) := T

def ofRow (f : ℕ → W) : Tree A W 0 := f

def ofChild (f : ℕ → Option (A × Tree A W n)) : Tree A W (n+1) := f

@[simp] theorem row_ofRow (f : ℕ → W) : (ofRow f : Tree A W 0).row = f := rfl

@[simp] theorem child_ofChild (f : ℕ → Option (A × Tree A W n)) : (ofChild f).child = f := rfl

theorem ext_row {T S : Tree A W 0} (h : T.row = S.row) : T = S := h

/-- The tree with one child replaced. -/
def setChild (T : Tree A W (n+1)) (i : ℕ) (c : A × Tree A W n) : Tree A W (n+1) :=
  ofChild (Function.update T.child i (some c))

@[simp] theorem child_setChild_self (T : Tree A W (n+1)) (i : ℕ) (c : A × Tree A W n) :
    (T.setChild i c).child i = some c := Function.update_self _ _ _

theorem child_setChild_ne (T : Tree A W (n+1)) {i j : ℕ} (c : A × Tree A W n) (h : j ≠ i) :
    (T.setChild i c).child j = T.child j := Function.update_of_ne h _ _

end Tree

variable (F : Format A W)

/-- The memory `m` holds the tree at the table `a`. -/
def Rep (m : A → ℕ → W) : (n : ℕ) → A → Tree A W n → Prop
  | 0, a, T => ∀ i < F.arity, m a i = T.row i
  | n+1, a, T => ∀ i < F.arity, match T.child i with
      | none => F.decode (m a i) = none
      | some c => F.decode (m a i) = some c.1 ∧ Rep m n c.1 c.2

/-- The tables of the tree. -/
def foot : (n : ℕ) → A → Tree A W n → Set A
  | 0, a, _ => {a}
  | n+1, a, T => {x | x = a ∨ ∃ i < F.arity, ∃ c, T.child i = some c ∧ x ∈ foot n c.1 c.2}

/-- No table occurs at two places of the tree. -/
def Sep : (n : ℕ) → A → Tree A W n → Prop
  | 0, _, _ => True
  | n+1, a, T =>
      (∀ i < F.arity, ∀ c, T.child i = some c → a ∉ foot F n c.1 c.2 ∧ Sep n c.1 c.2) ∧
      ∀ i < F.arity, ∀ j < F.arity, i ≠ j → ∀ c d, T.child i = some c → T.child j = some d →
        Disjoint (foot F n c.1 c.2) (foot F n d.1 d.2)

/-- The leaf word on the index path `ix`, when the path has all its tables. -/
def entry : (n : ℕ) → Tree A W n → (ℕ → ℕ) → Option W
  | 0, T, ix => some (T.row (ix 0))
  | n+1, T, ix => match T.child (ix (n+1)) with
      | none => none
      | some c => entry n c.2 ix

/-- The leaf word on a path when it decodes, that is, when the path is mapped. -/
def view (n : ℕ) (T : Tree A W n) (ix : ℕ → ℕ) : Option W :=
  (entry n T ix).filter (fun w => (F.decode w).isSome)

/-- The tables of the tree on an index path, from the root on. -/
def trail : (n : ℕ) → A → Tree A W n → (ℕ → ℕ) → List A
  | 0, a, _, _ => [a]
  | n+1, a, T, ix => a :: match T.child (ix (n+1)) with
      | none => []
      | some c => trail n c.1 c.2 ix

/-- The leaf table that a walk through memory reaches. -/
def walk (m : A → ℕ → W) : (n : ℕ) → A → (ℕ → ℕ) → Option A
  | 0, a, _ => some a
  | n+1, a, ix => match F.decode (m a (ix (n+1))) with
      | none => none
      | some b => walk m n b ix

/-- The tables that a walk through memory passes, from the root on. -/
def path (m : A → ℕ → W) : (n : ℕ) → A → (ℕ → ℕ) → List A
  | 0, a, _ => [a]
  | n+1, a, ix => a :: match F.decode (m a (ix (n+1))) with
      | none => []
      | some b => path m n b ix

/-- The leaf word that a walk through memory reads, when it decodes. -/
def lookup (m : A → ℕ → W) (n : ℕ) (a : A) (ix : ℕ → ℕ) : Option W :=
  ((walk F m n a ix).map (fun t => m t (ix 0))).filter (fun w => (F.decode w).isSome)

/-- The tables that walks through memory reach. -/
def tables (m : A → ℕ → W) : (n : ℕ) → A → Set A
  | 0, a => {a}
  | n+1, a => {x | x = a ∨ ∃ i < F.arity, ∃ b, F.decode (m a i) = some b ∧ x ∈ tables m n b}

/-- The tree of a table that has just been filled with blank words. -/
def blankTree : (n : ℕ) → Tree A W n
  | 0 => .ofRow (fun _ => F.blank)
  | _+1 => .ofChild (fun _ => none)

/-- Two paths that agree on the levels of a tree. -/
def SamePath (n : ℕ) (ix jx : ℕ → ℕ) : Prop := ∀ k ≤ n, ix k = jx k

variable {F} {m m' : A → ℕ → W} {n : ℕ} {a b t : A}

theorem mem_foot_root (T : Tree A W n) : a ∈ foot F n a T := by
  cases n with
  | zero => exact rfl
  | succ n => exact Or.inl rfl

theorem mem_foot_child {T : Tree A W (n+1)} {i : ℕ} (hi : i < F.arity) {c : A × Tree A W n}
    (hc : T.child i = some c) {x : A} (hx : x ∈ foot F n c.1 c.2) : x ∈ foot F (n+1) a T :=
  Or.inr ⟨i, hi, c, hc, hx⟩

theorem Rep.frame {T : Tree A W n} (h : Rep F m n a T)
    (hm : ∀ x ∈ foot F n a T, ∀ i < F.arity, m' x i = m x i) : Rep F m' n a T := by
  induction n generalizing a with
  | zero =>
    intro i hi
    rw [hm a rfl i hi]
    exact h i hi
  | succ n ih =>
    intro i hi
    have hrow : m' a i = m a i := hm a (mem_foot_root T) i hi
    have hi' := h i hi
    cases hc : T.child i with
    | none =>
      rw [hc] at hi'
      simpa only [hrow] using hi'
    | some c =>
      rw [hc] at hi'
      exact ⟨by rw [hrow]; exact hi'.1, ih hi'.2 (fun x hx => hm x (mem_foot_child hi hc hx))⟩

theorem Rep.child {T : Tree A W (n+1)} (h : Rep F m (n+1) a T) {i : ℕ} (hi : i < F.arity)
    {c : A × Tree A W n} (hc : T.child i = some c) :
    F.decode (m a i) = some c.1 ∧ Rep F m n c.1 c.2 := by
  have h' := h i hi
  rwa [hc] at h'

theorem Rep.no_child {T : Tree A W (n+1)} (h : Rep F m (n+1) a T) {i : ℕ} (hi : i < F.arity)
    (hc : T.child i = none) : F.decode (m a i) = none := by
  have h' := h i hi
  rwa [hc] at h'

theorem Rep.child_of_decode {T : Tree A W (n+1)} (h : Rep F m (n+1) a T) {i : ℕ}
    (hi : i < F.arity) (hd : F.decode (m a i) = some b) :
    ∃ S, T.child i = some (b, S) ∧ Rep F m n b S := by
  cases hc : T.child i with
  | none =>
    rw [h.no_child hi hc] at hd
    cases hd
  | some c =>
    obtain ⟨hdc, hS⟩ := h.child hi hc
    obtain ⟨b', S⟩ := c
    obtain rfl := Option.mem_unique hdc hd
    exact ⟨S, rfl, hS⟩

theorem Rep.none_of_decode {T : Tree A W (n+1)} (h : Rep F m (n+1) a T) {i : ℕ}
    (hi : i < F.arity) (hd : F.decode (m a i) = none) : T.child i = none := by
  cases hc : T.child i with
  | none => rfl
  | some c =>
    rw [(h.child hi hc).1] at hd
    cases hd

theorem Rep.entry_eq_walk {T : Tree A W n} (h : Rep F m n a T) {ix : ℕ → ℕ}
    (hix : ∀ k, ix k < F.arity) :
    entry n T ix = (walk F m n a ix).map (fun t => m t (ix 0)) := by
  induction n generalizing a with
  | zero => exact congrArg some (h (ix 0) (hix 0)).symm
  | succ n ih =>
    cases hd : F.decode (m a (ix (n+1))) with
    | none => simp [entry, walk, hd, h.none_of_decode (hix _) hd]
    | some b =>
      obtain ⟨S, hT, hS⟩ := h.child_of_decode (hix _) hd
      simp [entry, walk, hd, hT, ih hS]

theorem Rep.view_eq_lookup {T : Tree A W n} (h : Rep F m n a T) {ix : ℕ → ℕ}
    (hix : ∀ k, ix k < F.arity) : view F n T ix = lookup F m n a ix := by
  rw [view, lookup, h.entry_eq_walk hix]

theorem Rep.foot_eq_tables {T : Tree A W n} (h : Rep F m n a T) :
    foot F n a T = tables F m n a := by
  induction n generalizing a with
  | zero => rfl
  | succ n ih =>
    ext x
    constructor
    · rintro (hx | ⟨i, hi, c, hc, hx⟩)
      · exact Or.inl hx
      · rcases h.child hi hc with ⟨hd, hS⟩
        exact Or.inr ⟨i, hi, c.1, hd, by rwa [← ih hS]⟩
    · rintro (hx | ⟨i, hi, b, hd, hx⟩)
      · exact Or.inl hx
      · rcases h.child_of_decode hi hd with ⟨S, hT, hS⟩
        exact mem_foot_child hi hT (by rwa [ih hS])

theorem Rep.walk_mem_foot {T : Tree A W n} (h : Rep F m n a T) {ix : ℕ → ℕ}
    (hix : ∀ k, ix k < F.arity) (hw : walk F m n a ix = some t) : t ∈ foot F n a T := by
  induction n generalizing a with
  | zero => exact (Option.some.inj hw).symm
  | succ n ih =>
    cases hd : F.decode (m a (ix (n+1))) with
    | none => simp [walk, hd] at hw
    | some b =>
      obtain ⟨S, hT, hS⟩ := h.child_of_decode (hix _) hd
      simp only [walk, hd] at hw
      exact mem_foot_child (hix _) hT (ih hS hw)

section Trail

theorem trail_none {T : Tree A W (n+1)} {ix : ℕ → ℕ} (hc : T.child (ix (n+1)) = none) :
    trail (n+1) a T ix = [a] := by
  simp only [trail, hc]

theorem trail_some {T : Tree A W (n+1)} {ix : ℕ → ℕ} {c : A × Tree A W n}
    (hc : T.child (ix (n+1)) = some c) : trail (n+1) a T ix = a :: trail n c.1 c.2 ix := by
  simp only [trail, hc]

theorem mem_trail_root (T : Tree A W n) (ix : ℕ → ℕ) : a ∈ trail n a T ix := by
  cases n with
  | zero => exact List.mem_singleton.mpr rfl
  | succ n => exact List.mem_cons_self ..

theorem Rep.path_eq {T : Tree A W n} (h : Rep F m n a T) {ix : ℕ → ℕ}
    (hix : ∀ k, ix k < F.arity) : path F m n a ix = trail n a T ix := by
  induction n generalizing a with
  | zero => rfl
  | succ n ih =>
    cases hd : F.decode (m a (ix (n+1))) with
    | none => simp [path, hd, trail_none (h.none_of_decode (hix _) hd)]
    | some b =>
      obtain ⟨S, hT, hS⟩ := h.child_of_decode (hix _) hd
      simp [path, hd, trail_some hT, ih hS]

theorem trail_subset_foot {T : Tree A W n} {ix : ℕ → ℕ} (hix : ∀ k, ix k < F.arity) {x : A}
    (hx : x ∈ trail n a T ix) : x ∈ foot F n a T := by
  induction n generalizing a with
  | zero => exact List.mem_singleton.mp hx
  | succ n ih =>
    cases hc : T.child (ix (n+1)) with
    | none =>
      rw [trail_none hc] at hx
      exact Or.inl (List.mem_singleton.mp hx)
    | some c =>
      rw [trail_some hc] at hx
      rcases List.mem_cons.mp hx with rfl | hx
      · exact mem_foot_root T
      · exact mem_foot_child (hix _) hc (ih hx)

end Trail

section Blank

theorem rep_blankTree (hb : ∀ i < F.arity, m a i = F.blank) : Rep F m n a (blankTree F n) := by
  cases n with
  | zero => exact hb
  | succ n =>
    intro i hi
    change F.decode (m a i) = none
    rw [hb i hi, F.decode_blank]

theorem sep_blankTree (n : ℕ) (a : A) : Sep F n a (blankTree F n) := by
  cases n with
  | zero => trivial
  | succ n => exact ⟨fun i _ c hc => (nomatch hc), fun i _ j _ _ c d hc => (nomatch hc)⟩

theorem foot_blankTree (n : ℕ) (a : A) : foot F n a (blankTree F n) = {a} := by
  cases n with
  | zero => rfl
  | succ n =>
    ext x
    constructor
    · rintro (hx | ⟨i, _, c, hc, _⟩)
      · exact hx
      · nomatch hc
    · intro hx
      exact Or.inl hx

theorem trail_blankTree (n : ℕ) (a : A) (ix : ℕ → ℕ) : trail n a (blankTree F n) ix = [a] := by
  cases n with
  | zero => rfl
  | succ n => exact trail_none rfl

theorem view_blankTree (n : ℕ) (ix : ℕ → ℕ) : view F n (blankTree F n) ix = none := by
  cases n with
  | zero => simp [view, entry, blankTree, F.decode_blank]
  | succ n => rfl

end Blank

section Child

variable {T : Tree A W (n+1)} {i : ℕ} {S : Tree A W n}

theorem view_setChild (ix : ℕ → ℕ) :
    view F (n+1) (T.setChild i (b, S)) ix =
      if ix (n+1) = i then view F n S ix else view F (n+1) T ix := by
  unfold view
  simp only [entry]
  by_cases h : ix (n+1) = i
  · rw [h, Tree.child_setChild_self, if_pos rfl]
  · rw [Tree.child_setChild_ne T _ h, if_neg h]

theorem foot_setChild_subset :
    foot F (n+1) a (T.setChild i (b, S)) ⊆ foot F (n+1) a T ∪ foot F n b S := by
  rintro x (rfl | ⟨j, hj, c, hc, hx⟩)
  · exact Or.inl (mem_foot_root T)
  · by_cases hji : j = i
    · subst hji
      rw [Tree.child_setChild_self] at hc
      cases hc
      exact Or.inr hx
    · rw [Tree.child_setChild_ne T _ hji] at hc
      exact Or.inl (mem_foot_child hj hc hx)

theorem foot_setChild_of_none (hi : i < F.arity) (hT : T.child i = none) :
    foot F (n+1) a (T.setChild i (b, S)) = foot F (n+1) a T ∪ foot F n b S := by
  apply Set.Subset.antisymm foot_setChild_subset
  rintro x ((rfl | ⟨j, hj, c, hc, hx⟩) | hx)
  · exact mem_foot_root _
  · have hji : j ≠ i := by
      rintro rfl
      rw [hT] at hc
      cases hc
    exact mem_foot_child hj ((Tree.child_setChild_ne T _ hji).trans hc) hx
  · exact mem_foot_child hi (Tree.child_setChild_self _ _ _) hx

theorem trail_setChild (ix : ℕ → ℕ) :
    trail (n+1) a (T.setChild i (b, S)) ix =
      if ix (n+1) = i then a :: trail n b S ix else trail (n+1) a T ix := by
  by_cases h : ix (n+1) = i
  · rw [if_pos h, trail_some (by rw [h]; exact Tree.child_setChild_self T i (b, S))]
  · rw [if_neg h]
    simp only [trail, Tree.child_setChild_ne T _ h]

theorem Rep.setChild (h : Rep F m (n+1) a T) (hd : F.decode (m' a i) = some b)
    (hS : Rep F m' n b S) (hrow : ∀ j < F.arity, j ≠ i → m' a j = m a j)
    (hoff : ∀ j < F.arity, j ≠ i → ∀ c, T.child j = some c →
      ∀ x ∈ foot F n c.1 c.2, ∀ k < F.arity, m' x k = m x k) :
    Rep F m' (n+1) a (T.setChild i (b, S)) := by
  intro j hj
  by_cases hji : j = i
  · subst hji
    rw [Tree.child_setChild_self]
    exact ⟨hd, hS⟩
  · rw [Tree.child_setChild_ne T _ hji]
    cases hc : T.child j with
    | none =>
      rw [hrow j hj hji]
      exact h.no_child hj hc
    | some c =>
      obtain ⟨hdc, hrep⟩ := h.child hj hc
      exact ⟨by rw [hrow j hj hji]; exact hdc, hrep.frame (hoff j hj hji c hc)⟩

/-- The new child may keep tables of the old one, and no other table of the tree. -/
theorem Sep.setChild (h : Sep F (n+1) a T) (hi : i < F.arity) (hS : Sep F n b S)
    (hfoot : ∀ x ∈ foot F n b S, x ∈ foot F (n+1) a T →
      ∃ c, T.child i = some c ∧ x ∈ foot F n c.1 c.2) :
    Sep F (n+1) a (T.setChild i (b, S)) := by
  have hroot : a ∉ foot F n b S := by
    intro ha
    obtain ⟨c, hc, hac⟩ := hfoot a ha (mem_foot_root T)
    exact (h.1 i hi c hc).1 hac
  have hside : ∀ j < F.arity, j ≠ i → ∀ c, T.child j = some c →
      Disjoint (foot F n b S) (foot F n c.1 c.2) := by
    intro j hj hji c hc
    rw [Set.disjoint_left]
    intro x hx hxc
    obtain ⟨d, hd, hxd⟩ := hfoot x hx (mem_foot_child hj hc hxc)
    exact Set.disjoint_left.mp (h.2 i hi j hj (Ne.symm hji) d c hd hc) hxd hxc
  constructor
  · intro j hj c hc
    by_cases hji : j = i
    · subst hji
      rw [Tree.child_setChild_self] at hc
      cases hc
      exact ⟨hroot, hS⟩
    · rw [Tree.child_setChild_ne T _ hji] at hc
      exact h.1 j hj c hc
  · intro j hj k hk hjk c d hc hd
    by_cases hji : j = i
    · subst hji
      rw [Tree.child_setChild_self] at hc
      rw [Tree.child_setChild_ne T _ (Ne.symm hjk)] at hd
      cases hc
      exact hside k hk (Ne.symm hjk) d hd
    · rw [Tree.child_setChild_ne T _ hji] at hc
      by_cases hki : k = i
      · subst hki
        rw [Tree.child_setChild_self] at hd
        cases hd
        exact (hside j hj hji c hc).symm
      · rw [Tree.child_setChild_ne T _ hki] at hd
        exact h.2 j hj k hk hjk c d hc hd

end Child

section Leaf

variable [DecidableEq A]

/-- One word of one table is written. -/
def write (m : A → ℕ → W) (t : A) (i : ℕ) (w : W) : A → ℕ → W :=
  Function.update m t (Function.update (m t) i w)

theorem write_same (m : A → ℕ → W) (t : A) (i : ℕ) (w : W) : write m t i w t i = w := by
  simp [write]

theorem write_row (m : A → ℕ → W) (t : A) {i j : ℕ} (w : W) (h : j ≠ i) :
    write m t i w t j = m t j := by
  simp [write, h]

theorem write_other (m : A → ℕ → W) {t x : A} (i : ℕ) (w : W) (h : x ≠ t) :
    write m t i w x = m x := by
  simp [write, h]

/-- The tree with the leaf on a path replaced. -/
def setLeaf : (n : ℕ) → Tree A W n → (ℕ → ℕ) → W → Tree A W n
  | 0, T, ix, w => .ofRow (Function.update T.row (ix 0) w)
  | n+1, T, ix, w => match T.child (ix (n+1)) with
      | none => T
      | some c => T.setChild (ix (n+1)) (c.1, setLeaf n c.2 ix w)

omit [DecidableEq A] in
theorem foot_setLeaf (T : Tree A W n) (ix : ℕ → ℕ) (w : W) :
    foot F n a (setLeaf n T ix w) = foot F n a T := by
  induction n generalizing a with
  | zero => rfl
  | succ n ih =>
    simp only [setLeaf]
    cases hc : T.child (ix (n+1)) with
    | none => rfl
    | some c =>
      ext x
      constructor
      · rintro (hx | ⟨j, hj, d, hd, hx⟩)
        · exact Or.inl hx
        · by_cases hji : j = ix (n+1)
          · subst hji
            rw [Tree.child_setChild_self] at hd
            cases hd
            exact mem_foot_child hj hc (by rwa [ih] at hx)
          · rw [Tree.child_setChild_ne T _ hji] at hd
            exact mem_foot_child hj hd hx
      · rintro (hx | ⟨j, hj, d, hd, hx⟩)
        · exact Or.inl hx
        · by_cases hji : j = ix (n+1)
          · subst hji
            obtain rfl := Option.mem_unique hc hd
            exact mem_foot_child hj (Tree.child_setChild_self _ _ _) (by rwa [ih])
          · exact mem_foot_child hj (by rw [Tree.child_setChild_ne T _ hji]; exact hd) hx

omit [DecidableEq A] in
theorem trail_setLeaf (T : Tree A W n) (ix jx : ℕ → ℕ) (w : W) :
    trail n a (setLeaf n T ix w) jx = trail n a T jx := by
  induction n generalizing a with
  | zero => rfl
  | succ n ih =>
    simp only [setLeaf]
    cases hc : T.child (ix (n+1)) with
    | none => rfl
    | some c =>
      by_cases htop : jx (n+1) = ix (n+1)
      · rw [trail_setChild, if_pos htop, ih, trail_some (by rw [htop]; exact hc)]
      · rw [trail_setChild, if_neg htop]

omit [DecidableEq A] in
theorem Sep.setLeaf {T : Tree A W n} (h : Sep F n a T) (ix : ℕ → ℕ) (w : W)
    (hix : ∀ k, ix k < F.arity) : Sep F n a (setLeaf n T ix w) := by
  induction n generalizing a with
  | zero => trivial
  | succ n ih =>
    simp only [Radix.setLeaf]
    cases hc : T.child (ix (n+1)) with
    | none => exact h
    | some c =>
      refine Sep.setChild h (hix _) (ih (h.1 _ (hix _) c hc).2) ?_
      intro x hx _
      exact ⟨c, hc, by rwa [foot_setLeaf] at hx⟩

theorem Rep.setLeaf {T : Tree A W n} (h : Rep F m n a T) (hs : Sep F n a T) {ix : ℕ → ℕ}
    (hix : ∀ k, ix k < F.arity) (hw : walk F m n a ix = some t) (w : W) :
    Rep F (write m t (ix 0) w) n a (setLeaf n T ix w) := by
  induction n generalizing a with
  | zero =>
    obtain rfl : a = t := Option.some.inj hw
    intro i hi
    by_cases hii : i = ix 0
    · subst hii
      simp [Radix.setLeaf, write_same]
    · simp [Radix.setLeaf, write_row m a w hii, Function.update_of_ne hii, h i hi]
  | succ n ih =>
    cases hd : F.decode (m a (ix (n+1))) with
    | none => simp [walk, hd] at hw
    | some b =>
      obtain ⟨S, hT, hS⟩ := h.child_of_decode (hix _) hd
      simp only [walk, hd] at hw
      have hsub := hs.1 _ (hix _) _ hT
      have ht : t ∈ foot F n b S := hS.walk_mem_foot hix hw
      -- the written table is in the child on the path, so the root's row is untouched
      have hat : a ≠ t := fun he => hsub.1 (he ▸ ht)
      simp only [Radix.setLeaf, hT]
      refine h.setChild ?_ (ih hS hsub.2 hw) ?_ ?_
      · rw [write_other m _ _ hat]
        exact hd
      · intro j _ _
        rw [write_other m _ _ hat]
      · intro j hj hji c hc x hx k _
        have hdis := hs.2 _ (hix (n+1)) j hj (Ne.symm hji) _ c hT hc
        have hxt : x ≠ t := by
          rintro rfl
          exact Set.disjoint_left.mp hdis ht hx
        rw [write_other m _ _ hxt]

omit [DecidableEq A] in
theorem view_setLeaf_same {T : Tree A W n} (ix jx : ℕ → ℕ) (w : W) (hp : (entry n T ix).isSome)
    (hij : SamePath n ix jx) :
    view F n (setLeaf n T ix w) jx = (some w).filter (fun w => (F.decode w).isSome) := by
  induction n with
  | zero =>
    unfold view
    simp [entry, setLeaf, ← hij 0 le_rfl]
  | succ n ih =>
    simp only [setLeaf]
    cases hc : T.child (ix (n+1)) with
    | none => simp [entry, hc] at hp
    | some c =>
      simp only [entry, hc] at hp
      rw [view_setChild, if_pos (hij _ le_rfl).symm]
      exact ih hp (fun k hk => hij k (by omega))

omit [DecidableEq A] in
theorem view_setLeaf_other {T : Tree A W n} (ix jx : ℕ → ℕ) (w : W)
    (hij : ¬ SamePath n ix jx) : view F n (setLeaf n T ix w) jx = view F n T jx := by
  induction n with
  | zero =>
    have hne : jx 0 ≠ ix 0 := by
      intro he
      exact hij (fun k hk => by obtain rfl : k = 0 := by omega
                                exact he.symm)
    unfold view
    simp [entry, setLeaf, Function.update_of_ne hne]
  | succ n ih =>
    simp only [setLeaf]
    cases hc : T.child (ix (n+1)) with
    | none => rfl
    | some c =>
      rw [view_setChild]
      split
      · rename_i htop
        have hrest : ¬ SamePath n ix jx := by
          intro hs
          refine hij (fun k hk => ?_)
          by_cases hkn : k = n+1
          · rw [hkn, htop]
          · exact hs k (by omega)
        rw [ih hrest]
        unfold view
        simp [entry, htop, hc]
      · rfl

end Leaf

section Leaves

variable (F)

/-- The addresses that the mapped leaves decode to. -/
def leaves (n : ℕ) (T : Tree A W n) : Set A :=
  {x | ∃ ix, (∀ k, ix k < F.arity) ∧ ∃ w, view F n T ix = some w ∧ F.decode w = some x}

/-- No two leaves decode to the same address. -/
def Sole (n : ℕ) (T : Tree A W n) : Prop :=
  ∀ ix jx, (∀ k, ix k < F.arity) → (∀ k, jx k < F.arity) → ∀ v w, view F n T ix = some v →
    view F n T jx = some w → F.decode v = F.decode w → SamePath n ix jx

variable {F}

theorem view_congr {T : Tree A W n} {ix jx : ℕ → ℕ} (h : SamePath n ix jx) :
    view F n T ix = view F n T jx := by
  unfold view
  congr 1
  induction n with
  | zero => simp [entry, h 0 le_rfl]
  | succ n ih =>
    simp only [entry, h (n+1) le_rfl]
    cases T.child (jx (n+1)) with
    | none => rfl
    | some c => exact ih (fun k hk => h k (by omega))

variable {T : Tree A W (n+1)} {i : ℕ} {c : A × Tree A W n}

theorem view_through (hc : T.child i = some c) (ix : ℕ → ℕ) :
    view F (n+1) T (Function.update ix (n+1) i) = view F n c.2 ix := by
  have hrest : SamePath n (Function.update ix (n+1) i) ix := by
    intro k hk
    exact Function.update_of_ne (by omega) _ _
  rw [← view_congr hrest]
  unfold view
  simp [entry, hc]

theorem update_lt {ix : ℕ → ℕ} (hix : ∀ k, ix k < F.arity) (hi : i < F.arity) :
    ∀ k, Function.update ix (n+1) i k < F.arity := by
  intro k
  by_cases hk : k = n+1
  · rw [hk, Function.update_self]
    exact hi
  · rw [Function.update_of_ne hk]
    exact hix k

theorem mem_leaves_child (hi : i < F.arity) (hc : T.child i = some c) {x : A}
    (hx : x ∈ leaves F n c.2) : x ∈ leaves F (n+1) T := by
  rcases hx with ⟨ix, hix, w, hw, hd⟩
  exact ⟨_, update_lt hix hi, w, (view_through hc ix).trans hw, hd⟩

theorem mem_leaves_succ {x : A} (hx : x ∈ leaves F (n+1) T) :
    ∃ i < F.arity, ∃ c, T.child i = some c ∧ x ∈ leaves F n c.2 := by
  rcases hx with ⟨ix, hix, w, hw, hd⟩
  cases hc : T.child (ix (n+1)) with
  | none => simp [view, entry, hc] at hw
  | some c =>
    refine ⟨ix (n+1), hix _, c, hc, ix, hix, w, ?_, hd⟩
    rwa [view, entry, hc] at hw

theorem Sole.child (h : Sole F (n+1) T) (hi : i < F.arity) (hc : T.child i = some c) :
    Sole F n c.2 := by
  intro ix jx hix hjx v w hv hw hd k hk
  have hs := h _ _ (update_lt hix hi) (update_lt hjx hi) v w ((view_through hc ix).trans hv)
    ((view_through hc jx).trans hw) hd k (by omega)
  rwa [Function.update_of_ne (by omega), Function.update_of_ne (by omega)] at hs

theorem Sole.disjoint (h : Sole F (n+1) T) {j : ℕ} (hi : i < F.arity) (hj : j < F.arity)
    (hij : i ≠ j) {d : A × Tree A W n} (hc : T.child i = some c) (hd : T.child j = some d) :
    Disjoint (leaves F n c.2) (leaves F n d.2) := by
  rw [Set.disjoint_left]
  rintro x ⟨ix, hix, v, hv, hvx⟩ ⟨jx, hjx, w, hw, hwx⟩
  have hs := h _ _ (update_lt hix hi) (update_lt hjx hj) v w ((view_through hc ix).trans hv)
    ((view_through hd jx).trans hw) (hvx.trans hwx.symm) (n+1) le_rfl
  rw [Function.update_self, Function.update_self] at hs
  exact hij hs

end Leaves

end NaiLongKernel.Foundation.Radix
