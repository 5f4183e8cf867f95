import Mathlib.Data.List.Chain
import Mathlib.Logic.Function.Basic
import Mathlib.Logic.Relation
import Mathlib.Tactic

/-!
# Doubly linked chains

Two partial functions `next` and `prev` are linked when each is the inverse of the other.
Taking a node out and putting a loose node behind another keep them linked, whatever the
shape of the chains, cycles included. A row is a chain that begins and ends; both changes
make a row of a row, and leave the rows apart from it alone.
-/
namespace NaiLongKernel.Foundation

variable {α : Type} {next prev : α → Option α}

/-- `next` and `prev` are inverse to each other. -/
def Linked (next prev : α → Option α) : Prop := ∀ p q, next p = some q ↔ prev q = some p

/-- The list is one chain, from a node without predecessor to one without successor. -/
structure Row (next prev : α → Option α) (l : List α) : Prop where
  nodup : l.Nodup
  chain : l.IsChain (fun a b => next a = some b)
  first : ∀ a ∈ l.head?, prev a = none
  last : ∀ a ∈ l.getLast?, next a = none

namespace Row

variable {next' prev' : α → Option α} {l l₁ l₂ : List α} {a b : α}

theorem nil : Row next prev [] := ⟨List.nodup_nil, .nil, nofun, nofun⟩

theorem singleton (hn : next a = none) (hp : prev a = none) : Row next prev [a] := by
  refine ⟨List.nodup_singleton a, .singleton a, ?_, ?_⟩
  · rintro b ⟨⟩
    exact hp
  · rintro b ⟨⟩
    exact hn

theorem congr (h : Row next prev l) (hn : ∀ a ∈ l, next' a = next a) (hp : ∀ a ∈ l, prev' a = prev a) :
    Row next' prev' l := by
  refine ⟨h.nodup, ?_, ?_, ?_⟩
  · refine h.chain.imp_of_mem_imp ?_
    intro a b ha _ hab
    rw [hn a ha, hab]
  · intro a ha
    rw [hp a (List.mem_of_mem_head? ha)]
    exact h.first a ha
  · intro a ha
    rw [hn a (List.mem_of_mem_getLast? ha)]
    exact h.last a ha

theorem next_eq (h : Row next prev (l₁ ++ a :: l₂)) : next a = l₂.head? := by
  cases l₂ with
  | nil => exact h.last a (by simp)
  | cons b l₂ =>
    have hchain := (List.isChain_append.mp h.chain).2.1
    exact (List.isChain_cons_cons.mp hchain).1

theorem prev_eq (h : Row next prev (l₁ ++ a :: l₂)) (hlink : Linked next prev) :
    prev a = l₁.getLast? := by
  cases hl : l₁.getLast? with
  | none =>
    rw [List.getLast?_eq_none_iff.mp hl] at h
    exact h.first a rfl
  | some b =>
    exact (hlink b a).mp ((List.isChain_append.mp h.chain).2.2 b hl a rfl)

theorem next_mem (h : Row next prev l) (ha : a ∈ l) (hb : next a = some b) : b ∈ l := by
  obtain ⟨l₁, l₂, rfl⟩ := List.append_of_mem ha
  rw [h.next_eq] at hb
  exact List.mem_append_right _ (List.mem_cons_of_mem a (List.mem_of_mem_head? hb))

theorem prev_mem (h : Row next prev l) (hlink : Linked next prev) (ha : a ∈ l) (hb : prev a = some b) :
    b ∈ l := by
  obtain ⟨l₁, l₂, rfl⟩ := List.append_of_mem ha
  rw [h.prev_eq hlink] at hb
  exact List.mem_append_left _ (List.mem_of_mem_getLast? hb)

theorem reaches (h : Row next prev l) (hlink : Linked next prev) (ha : a ∈ l) (hb : b ∈ l) :
    Relation.ReflTransGen (fun x y => next x = some y ∨ prev x = some y) a b := by
  set R : α → α → Prop := fun x y => next x = some y ∨ prev x = some y with hR
  have hsymm : Std.Symm R := by
    refine ⟨?_⟩
    rintro x y (hxy | hxy)
    · exact Or.inr ((hlink x y).mp hxy)
    · exact Or.inl ((hlink y x).mpr hxy)
  -- the first node reaches all the others
  have forward : ∀ (l : List α) (x : α), (x :: l).IsChain (fun a b => next a = some b) →
      ∀ y ∈ x :: l, Relation.ReflTransGen R x y := by
    intro l
    induction l with
    | nil =>
      intro x _ y hy
      rw [List.mem_singleton.mp hy]
    | cons z l ih =>
      intro x hchain y hy
      obtain ⟨hxz, hrest⟩ := List.isChain_cons_cons.mp hchain
      rcases List.mem_cons.mp hy with rfl | hy
      · exact .refl
      · exact .head (Or.inl hxz) (ih z hrest y hy)
  cases l with
  | nil => cases ha
  | cons x l =>
    exact (Relation.ReflTransGen.stdSymm.symm _ _ (forward l x h.chain a ha)).trans
      (forward l x h.chain b hb)

theorem mem_of_reaches (h : Row next prev l) (hlink : Linked next prev) (ha : a ∈ l)
    (hab : Relation.ReflTransGen (fun x y => next x = some y ∨ prev x = some y) a b) : b ∈ l := by
  induction hab with
  | refl => exact ha
  | tail _ hxy ih =>
    rcases hxy with hxy | hxy
    · exact h.next_mem ih hxy
    · exact h.prev_mem hlink ih hxy

theorem follows (h : Row next prev (l₁ ++ a :: l₂))
    (hab : Relation.TransGen (fun x y => next x = some y) a b) : b ∈ l₂ := by
  induction hab with
  | single hb =>
    rw [h.next_eq] at hb
    exact List.mem_of_mem_head? hb
  | @tail x y _ hy ih =>
    obtain ⟨m₁, m₂, rfl⟩ := List.append_of_mem ih
    have hrow : Row next prev ((l₁ ++ a :: m₁) ++ x :: m₂) := by
      rwa [List.append_assoc, List.cons_append]
    rw [hrow.next_eq] at hy
    exact List.mem_append_right _ (List.mem_cons_of_mem x (List.mem_of_mem_head? hy))

theorem acyclic (h : Row next prev l) (ha : a ∈ l) :
    ¬Relation.TransGen (fun x y => next x = some y) a a := by
  obtain ⟨l₁, l₂, rfl⟩ := List.append_of_mem ha
  intro hcycle
  have hnodup := (List.nodup_append.mp h.nodup).2.1
  exact (List.nodup_cons.mp hnodup).1 (h.follows hcycle)

theorem eq_of_loose (h : Row next prev l) (hlink : Linked next prev) (hn : next a = none)
    (hp : prev a = none) (ha : a ∈ l) : l = [a] := by
  obtain ⟨l₁, l₂, rfl⟩ := List.append_of_mem ha
  rw [h.next_eq, List.head?_eq_none_iff] at hn
  rw [h.prev_eq hlink, List.getLast?_eq_none_iff] at hp
  rw [hn, hp, List.nil_append]

end Row

variable [DecidableEq α]

/-- `f` with the node before `p`, if any, sent to what comes after `p`. -/
def bypass (f : α → Option α) (before after : Option α) : α → Option α :=
  match before with
  | some a => Function.update f a after
  | none => f

theorem bypass_eq (f : α → Option α) (before after : Option α) (x : α) :
    bypass f before after x = if before = some x then after else f x := by
  cases before with
  | none => simp [bypass]
  | some a =>
    by_cases hx : x = a
    · simp [bypass, hx]
    · simp [bypass, Function.update_of_ne hx, Ne.symm hx]

theorem Linked.remove (h : Linked next prev) (p : α) :
    Linked (Function.update (bypass next (prev p) (next p)) p none)
      (Function.update (bypass prev (next p) (prev p)) p none) := by
  intro x y
  have hxy := h x y
  have hpy := h p y
  have hxp := h x p
  have hpp := h p p
  simp only [Function.update_apply, bypass_eq]
  by_cases hx : x = p <;> by_cases hy : y = p
  · simp [hx, hy]
  · grind
  · grind
  · rw [if_neg hx, if_neg hy]
    split_ifs <;> grind

theorem Linked.insertAfter (h : Linked next prev) {p a : α} (hne : a ≠ p) (hn : next p = none)
    (hp : prev p = none) :
    Linked (Function.update (Function.update next p (next a)) a (some p))
      (Function.update (bypass prev (next a) (some p)) p (some a)) := by
  intro x y
  have hxy := h x y
  have hay := h a y
  have hpy := h p y
  have hxp := h x p
  simp only [Function.update_apply, bypass_eq]
  split_ifs <;> grind

theorem remove_insertAfter_next {p a : α} (hn : next p = none) :
    Function.update (bypass (Function.update (Function.update next p (next a)) a (some p))
      (some a) (next a)) p none = next := by
  funext x
  simp only [Function.update_apply, bypass_eq]
  split_ifs <;> grind

theorem Linked.remove_insertAfter_prev (h : Linked next prev) {p a : α} (hp : prev p = none) :
    Function.update (bypass (Function.update (bypass prev (next a) (some p)) p (some a))
      (next a) (some a)) p none = prev := by
  funext x
  have hax := h a x
  simp only [Function.update_apply, bypass_eq]
  split_ifs <;> grind

/-- If the links without `p` are `next` and `prev`, and `p` stands behind `a`, then `p` has been
put there. -/
theorem Linked.eq_insertAfter {next' prev' : α → Option α} (h : Linked next' prev') {p a : α}
    (hne : a ≠ p) (hplace : prev' p = some a)
    (hn : Function.update (bypass next' (prev' p) (next' p)) p none = next)
    (hp : Function.update (bypass prev' (next' p) (prev' p)) p none = prev) :
    next' = Function.update (Function.update next p (next a)) a (some p) ∧
      prev' = Function.update (bypass prev (next a) (some p)) p (some a) := by
  have hap : next' a = some p := (h a p).mpr hplace
  have hna : next a = next' p := by
    rw [← hn, Function.update_of_ne hne, hplace, bypass_eq, if_pos rfl]
  constructor
  · funext x
    have hx := congrFun hn x
    simp only [Function.update_apply, bypass_eq, hplace] at hx ⊢
    split_ifs <;> grind
  · funext x
    have hx := congrFun hp x
    have hpx := h p x
    simp only [Function.update_apply, bypass_eq, hplace, hna] at hx ⊢
    split_ifs <;> grind

namespace Row

variable {l : List α} {a p x : α}

theorem remove (h : Row next prev l) (hlink : Linked next prev) (hp : p ∈ l) :
    Row (Function.update (bypass next (prev p) (next p)) p none)
      (Function.update (bypass prev (next p) (prev p)) p none) (l.erase p) := by
  obtain ⟨l₁, l₂, rfl⟩ := List.append_of_mem hp
  have hn : next p = l₂.head? := h.next_eq
  have hpr : prev p = l₁.getLast? := h.prev_eq hlink
  obtain ⟨hnd₁, hnd₂, hdisj⟩ := List.nodup_append.mp h.nodup
  obtain ⟨hp₂, hnd₂⟩ := List.nodup_cons.mp hnd₂
  have hp₁ : p ∉ l₁ := fun hmem => hdisj p hmem p List.mem_cons_self rfl
  have hapart : ∀ x ∈ l₁, x ∉ l₂ := fun x hx hx' => hdisj x hx x (List.mem_cons_of_mem p hx') rfl
  obtain ⟨hc₁, hc₂, hmid⟩ := List.isChain_append.mp h.chain
  obtain ⟨-, hc₂⟩ := List.isChain_cons.mp hc₂
  rw [List.erase_append_right _ hp₁, List.erase_cons_head, hn, hpr]
  have hne : ∀ x ∈ l₁ ++ l₂, x ≠ p := by
    rintro x hx rfl
    exact (List.mem_append.mp hx).elim hp₁ hp₂
  have next_out : ∀ x ∈ l₁ ++ l₂, l₁.getLast? ≠ some x →
      Function.update (bypass next l₁.getLast? l₂.head?) p none x = next x := by
    intro x hx hl
    rw [Function.update_of_ne (hne x hx), bypass_eq, if_neg hl]
  have prev_out : ∀ x ∈ l₁ ++ l₂, l₂.head? ≠ some x →
      Function.update (bypass prev l₂.head? l₁.getLast?) p none x = prev x := by
    intro x hx hl
    rw [Function.update_of_ne (hne x hx), bypass_eq, if_neg hl]
  have next_last : ∀ x, l₁.getLast? = some x →
      Function.update (bypass next l₁.getLast? l₂.head?) p none x = l₂.head? := by
    intro x hl
    rw [Function.update_of_ne (hne x (List.mem_append_left _ (List.mem_of_mem_getLast? hl))),
      bypass_eq, if_pos hl]
  have prev_head : ∀ x, l₂.head? = some x →
      Function.update (bypass prev l₂.head? l₁.getLast?) p none x = l₁.getLast? := by
    intro x hl
    rw [Function.update_of_ne (hne x (List.mem_append_right _ (List.mem_of_mem_head? hl))),
      bypass_eq, if_pos hl]
  refine ⟨?_, List.isChain_append.mpr ⟨?_, ?_, ?_⟩, ?_, ?_⟩
  · exact List.nodup_append.mpr ⟨hnd₁, hnd₂, fun x hx y hy he => hapart x hx (he ▸ hy)⟩
  · refine hc₁.imp_of_mem_imp ?_
    intro x y hx hy hxy
    rw [next_out x (List.mem_append_left _ hx), hxy]
    intro hl
    -- the last node of the first part was followed by `p`
    have hxp := hmid x hl p rfl
    rw [hxy] at hxp
    exact hp₁ (Option.some.inj hxp ▸ hy)
  · refine hc₂.imp_of_mem_imp ?_
    intro x y hx _ hxy
    rw [next_out x (List.mem_append_right _ hx), hxy]
    exact fun hl => hapart x (List.mem_of_mem_getLast? hl) hx
  · intro x hx y hy
    rw [next_last x hx]
    exact hy
  · intro x hx
    cases l₁ with
    | nil => exact prev_head x hx
    | cons z l₁ =>
      obtain rfl : z = x := Option.some.inj hx
      rw [prev_out z (by simp)]
      · exact h.first z rfl
      · exact fun hl => hapart z List.mem_cons_self (List.mem_of_mem_head? hl)
  · intro x hx
    cases hl₂ : l₂.getLast? with
    | none =>
      have hnil := List.getLast?_eq_none_iff.mp hl₂
      rw [hnil, List.append_nil] at hx
      rw [next_last x hx, hnil]
      rfl
    | some z =>
      rw [List.getLast?_append, hl₂] at hx
      obtain rfl : z = x := Option.some.inj hx
      have hz := List.mem_of_mem_getLast? hl₂
      rw [next_out z (List.mem_append_right _ hz)]
      · exact h.last z (by rw [List.getLast?_append, List.getLast?_cons, hl₂]; rfl)
      · exact fun hl => hapart z (List.mem_of_mem_getLast? hl) hz

theorem remove_ne (h : Row next prev l) (hlink : Linked next prev) (hp : p ∈ l) (hx : x ∉ l) :
    Function.update (bypass next (prev p) (next p)) p none x = next x ∧
      Function.update (bypass prev (next p) (prev p)) p none x = prev x := by
  have hxp : x ≠ p := fun he => hx (he ▸ hp)
  refine ⟨?_, ?_⟩
  · rw [Function.update_of_ne hxp, bypass_eq, if_neg]
    exact fun hpx => hx (h.prev_mem hlink hp hpx)
  · rw [Function.update_of_ne hxp, bypass_eq, if_neg]
    exact fun hpx => hx (h.next_mem hp hpx)

theorem insertAfter (h : Row next prev l) (ha : a ∈ l) (hp : p ∉ l) :
    ∃ l', Row (Function.update (Function.update next p (next a)) a (some p))
      (Function.update (bypass prev (next a) (some p)) p (some a)) l' ∧ l'.Perm (p :: l) := by
  obtain ⟨l₁, l₂, rfl⟩ := List.append_of_mem ha
  have hn : next a = l₂.head? := h.next_eq
  have hperm : (l₁ ++ a :: p :: l₂).Perm (p :: (l₁ ++ a :: l₂)) := by
    have hmid : ((l₁ ++ [a]) ++ p :: l₂).Perm (p :: ((l₁ ++ [a]) ++ l₂)) := List.perm_middle
    simpa using hmid
  refine ⟨l₁ ++ a :: p :: l₂, ?_, hperm⟩
  obtain ⟨-, hnd₂, hdisj⟩ := List.nodup_append.mp h.nodup
  have ha₁ : a ∉ l₁ := fun hmem => hdisj a hmem a List.mem_cons_self rfl
  have ha₂ : a ∉ l₂ := (List.nodup_cons.mp hnd₂).1
  have hapart : ∀ x ∈ l₁, x ∉ l₂ := fun x hx hx' => hdisj x hx x (List.mem_cons_of_mem a hx') rfl
  have hne : ∀ x ∈ l₁ ++ a :: l₂, x ≠ p := fun x hx he => hp (he ▸ hx)
  obtain ⟨hc₁, hc₂, hmid⟩ := List.isChain_append.mp h.chain
  obtain ⟨-, hc₂⟩ := List.isChain_cons.mp hc₂
  rw [hn]
  set next' := Function.update (Function.update next p l₂.head?) a (some p) with hnext'
  set prev' := Function.update (bypass prev l₂.head? (some p)) p (some a) with hprev'
  have next_out : ∀ x ∈ l₁ ++ l₂, next' x = next x := by
    intro x hx
    have hmem : x ∈ l₁ ++ a :: l₂ := by
      rcases List.mem_append.mp hx with hx | hx
      · exact List.mem_append_left _ hx
      · exact List.mem_append_right _ (List.mem_cons_of_mem a hx)
    have hxa : x ≠ a := by
      rintro rfl
      exact (List.mem_append.mp hx).elim ha₁ ha₂
    rw [hnext', Function.update_of_ne hxa, Function.update_of_ne (hne x hmem)]
  have next_a : next' a = some p := Function.update_self _ _ _
  have next_p : next' p = l₂.head? := by
    rw [hnext', Function.update_of_ne (hne a ha).symm, Function.update_self]
  refine ⟨hperm.nodup_iff.mpr (List.nodup_cons.mpr ⟨hp, h.nodup⟩),
    List.isChain_append.mpr ⟨?_, ?_, ?_⟩, ?_, ?_⟩
  · refine hc₁.imp_of_mem_imp ?_
    intro x y hx _ hxy
    rw [next_out x (List.mem_append_left _ hx), hxy]
  · refine List.isChain_cons_cons.mpr ⟨next_a, List.isChain_cons.mpr ⟨?_, ?_⟩⟩
    · intro y hy
      rw [next_p]
      exact hy
    · refine hc₂.imp_of_mem_imp ?_
      intro x y hx _ hxy
      rw [next_out x (List.mem_append_right _ hx), hxy]
  · intro x hx y hy
    rw [next_out x (List.mem_append_left _ (List.mem_of_mem_getLast? hx))]
    exact hmid x hx y hy
  · intro x hx
    have hx' : x ∈ (l₁ ++ a :: l₂).head? := by
      cases l₁ <;> exact hx
    have hmem : x ∈ l₁ ++ a :: l₂ := List.mem_of_mem_head? hx'
    rw [hprev', Function.update_of_ne (hne x hmem), bypass_eq, if_neg]
    · exact h.first x hx'
    · intro hl
      have hx₂ := List.mem_of_mem_head? hl
      cases l₁ with
      | nil =>
        obtain rfl : a = x := Option.some.inj hx
        exact ha₂ hx₂
      | cons z l₁ =>
        obtain rfl : z = x := Option.some.inj hx
        exact hapart z List.mem_cons_self hx₂
  · intro x hx
    cases hl₂ : l₂.getLast? with
    | none =>
      have hnil := List.getLast?_eq_none_iff.mp hl₂
      rw [hnil] at hx next_p
      obtain rfl : p = x := by simpa using hx
      exact next_p
    | some z =>
      rw [List.getLast?_append, List.getLast?_cons, List.getLast?_cons, hl₂] at hx
      obtain rfl : z = x := Option.some.inj hx
      rw [next_out z (List.mem_append_right _ (List.mem_of_mem_getLast? hl₂))]
      exact h.last z (by rw [List.getLast?_append, List.getLast?_cons, hl₂]; rfl)

theorem insertAfter_ne (h : Row next prev l) (ha : a ∈ l) (hx : x ∉ l) (hxp : x ≠ p) :
    Function.update (Function.update next p (next a)) a (some p) x = next x ∧
      Function.update (bypass prev (next a) (some p)) p (some a) x = prev x := by
  have hxa : x ≠ a := fun he => hx (he ▸ ha)
  refine ⟨?_, ?_⟩
  · rw [Function.update_of_ne hxa, Function.update_of_ne hxp]
  · rw [Function.update_of_ne hxp, bypass_eq, if_neg]
    exact fun hax => hx (h.next_mem ha hax)

theorem erase (h : Row next prev l) (hlink : Linked next prev) (p : α) :
    Row (Function.update (bypass next (prev p) (next p)) p none)
      (Function.update (bypass prev (next p) (prev p)) p none) (l.erase p) := by
  by_cases hp : p ∈ l
  · exact h.remove hlink hp
  · rw [List.erase_of_not_mem hp]
    -- a node of the row is no neighbour of `p`
    refine h.congr ?_ ?_
    · intro x hx
      have hxp : x ≠ p := fun he => hp (he ▸ hx)
      rw [Function.update_of_ne hxp, bypass_eq, if_neg]
      exact fun hpx => hp (h.next_mem hx ((hlink x p).mpr hpx))
    · intro x hx
      have hxp : x ≠ p := fun he => hp (he ▸ hx)
      rw [Function.update_of_ne hxp, bypass_eq, if_neg]
      exact fun hpx => hp (h.prev_mem hlink hx ((hlink p x).mp hpx))

theorem insert_elsewhere (h : Row next prev l) (hlink : Linked next prev) (ha : a ∉ l) (hp : p ∉ l) :
    Row (Function.update (Function.update next p (next a)) a (some p))
      (Function.update (bypass prev (next a) (some p)) p (some a)) l := by
  refine h.congr ?_ ?_
  · intro x hx
    have hxa : x ≠ a := fun he => ha (he ▸ hx)
    have hxp : x ≠ p := fun he => hp (he ▸ hx)
    rw [Function.update_of_ne hxa, Function.update_of_ne hxp]
  · intro x hx
    have hxp : x ≠ p := fun he => hp (he ▸ hx)
    rw [Function.update_of_ne hxp, bypass_eq, if_neg]
    exact fun hax => ha (h.prev_mem hlink hx ((hlink a x).mp hax))

end Row

end NaiLongKernel.Foundation
