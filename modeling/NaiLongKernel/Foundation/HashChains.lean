import Mathlib.Data.List.Perm.Basic
import Mathlib.Data.List.Nodup
import Mathlib.Tactic

/-!
# Chains of cells and tables of chains

A chain is a singly linked list in memory that ends with the null pointer. A table has one
chain for each of its buckets: every cell lies in the bucket that its data belong to, and
no cell is linked twice. The lemmas say what pushing, unlinking and rewriting one cell do
to a table; cells outside it may change freely.
-/
namespace NaiLongKernel.Foundation

variable {α β : Type}

/-- Data, and the address of the next cell. -/
structure Cell (α β : Type) where
  data : β
  next : Option α
deriving DecidableEq, Repr

/-- The cells passed from `h` on until the null pointer, with their addresses. -/
def Chain (mem : α → Option (Cell α β)) : Option α → List (α × β) → Prop
  | h, [] => h = none
  | h, x :: l => h = some x.1 ∧ ∃ next, mem x.1 = some ⟨x.2, next⟩ ∧ Chain mem next l

namespace Chain

variable {mem mem' : α → Option (Cell α β)} {h : Option α} {l : List (α × β)}

theorem frame (hc : Chain mem h l) (hmem : ∀ x ∈ l, mem' x.1 = mem x.1) : Chain mem' h l := by
  induction l generalizing h with
  | nil => exact hc
  | cons x l ih =>
    obtain ⟨hh, next, hx, hrest⟩ := hc
    refine ⟨hh, next, ?_, ih hrest fun y hy => hmem y (List.mem_cons_of_mem _ hy)⟩
    rw [hmem x List.mem_cons_self, hx]

theorem live (hc : Chain mem h l) {x : α × β} (hx : x ∈ l) :
    ∃ next, mem x.1 = some ⟨x.2, next⟩ := by
  induction l generalizing h with
  | nil => cases hx
  | cons y l ih =>
    obtain ⟨-, next, hy, hrest⟩ := hc
    rcases List.mem_cons.mp hx with rfl | hx
    · exact ⟨next, hy⟩
    · exact ih hrest hx

theorem frame_all {heads : List (Option α)} {chains : List (List (α × β))}
    (hc : List.Forall₂ (Chain mem) heads chains)
    (hmem : ∀ x ∈ chains.flatten, mem' x.1 = mem x.1) :
    List.Forall₂ (Chain mem') heads chains := by
  induction hc with
  | nil => exact .nil
  | cons hc _ ih =>
    simp only [List.flatten_cons, List.mem_append] at hmem
    exact .cons (hc.frame fun x hx => hmem x (Or.inl hx)) (ih fun x hx => hmem x (Or.inr hx))

theorem live_all {heads : List (Option α)} {chains : List (List (α × β))}
    (hc : List.Forall₂ (Chain mem) heads chains) {x : α × β} (hx : x ∈ chains.flatten) :
    ∃ next, mem x.1 = some ⟨x.2, next⟩ := by
  induction hc with
  | nil => cases hx
  | cons hc _ ih =>
    rw [List.flatten_cons, List.mem_append] at hx
    exact hx.elim hc.live ih

variable [DecidableEq α]

theorem update (hc : Chain mem h l) {p : α} (hp : p ∉ l.map Prod.fst) (c : Option (Cell α β)) :
    Chain (Function.update mem p c) h l := by
  apply hc.frame
  intro x hx
  apply Function.update_of_ne
  rintro rfl
  exact hp (List.mem_map_of_mem hx)

/-- A write behind the prefix, at a node `y` that stands for the new rest of the chain. -/
theorem updateAfter {pre l l' : List (α × β)} {y : α × β} {c : Option (Cell α β)}
    (hc : Chain mem h (pre ++ y :: l)) (hnodup : ((pre ++ y :: l).map Prod.fst).Nodup)
    (hl : ∀ h', Chain mem h' (y :: l) → Chain (Function.update mem y.1 c) h' l') :
    Chain (Function.update mem y.1 c) h (pre ++ l') := by
  induction pre generalizing h with
  | nil => exact hl h hc
  | cons z pre ih =>
    obtain ⟨hh, next, hz, hrest⟩ := hc
    rw [List.cons_append, List.map_cons, List.nodup_cons] at hnodup
    refine ⟨hh, next, ?_, ih hrest hnodup.2⟩
    rw [Function.update_of_ne, hz]
    intro heq
    apply hnodup.1
    rw [heq]
    simp

theorem bypass {pre post : List (α × β)} {y x : α × β} {next : Option α}
    (hc : Chain mem h (pre ++ y :: x :: post))
    (hnodup : ((pre ++ y :: x :: post).map Prod.fst).Nodup) (hx : mem x.1 = some ⟨x.2, next⟩) :
    Chain (Function.update mem y.1 (some ⟨y.2, next⟩)) h (pre ++ y :: post) := by
  refine hc.updateAfter hnodup ?_
  rintro h' ⟨hh, next', hy, hx', next'', hmem, hrest⟩
  cases hx.symm.trans hmem
  refine ⟨hh, next, by simp, hrest.update ?_ _⟩
  rw [List.map_append, List.nodup_append] at hnodup
  exact fun hmem => (List.nodup_cons.mp hnodup.2.1).1 (List.mem_cons_of_mem _ hmem)

theorem write {pre post : List (α × β)} {x : α × β} {next : Option α}
    (hc : Chain mem h (pre ++ x :: post)) (hnodup : ((pre ++ x :: post).map Prod.fst).Nodup)
    (hx : mem x.1 = some ⟨x.2, next⟩) (d : β) :
    Chain (Function.update mem x.1 (some ⟨d, next⟩)) h (pre ++ (x.1, d) :: post) := by
  refine hc.updateAfter hnodup ?_
  rintro h' ⟨hh, next', hmem, hrest⟩
  cases hx.symm.trans hmem
  refine ⟨hh, next, by simp, hrest.update ?_ _⟩
  rw [List.map_append, List.nodup_append] at hnodup
  exact (List.nodup_cons.mp hnodup.2.1).1

end Chain

/-! ## Tables -/

section Flatten

variable {L : List (List α)} {i : ℕ} {c c' : List α}

theorem flatten_perm_of_getElem? (h : L[i]? = some c) :
    L.flatten.Perm (c ++ (L.eraseIdx i).flatten) := by
  obtain ⟨hi, rfl⟩ := List.getElem?_eq_some_iff.mp h
  exact (List.getElem_cons_eraseIdx_perm hi).symm.flatten

theorem flatten_set_perm (h : L[i]? = some c) :
    (L.set i c').flatten.Perm (c' ++ (L.eraseIdx i).flatten) := by
  obtain ⟨hi, rfl⟩ := List.getElem?_eq_some_iff.mp h
  have hset : (L.set i c')[i]? = some c' := by simp [hi]
  refine (flatten_perm_of_getElem? hset).trans ?_
  rw [List.eraseIdx_set_eq]

/-- Replacing one list by another changes the concatenation by the same exchange. -/
theorem flatten_set_perm_of_perm {l : List α} (h : L[i]? = some c) (hc : c'.Perm (l ++ c)) :
    (L.set i c').flatten.Perm (l ++ L.flatten) := by
  refine (flatten_set_perm h).trans ((hc.append_right _).trans ?_)
  rw [List.append_assoc]
  exact (flatten_perm_of_getElem? h).symm.append_left l

end Flatten

/-- The cells of a table, bucket by bucket; `place` is the bucket that data belong to. -/
structure Table (place : β → ℕ) (mem : α → Option (Cell α β)) (heads : List (Option α))
    (chains : List (List (α × β))) : Prop where
  chain : List.Forall₂ (Chain mem) heads chains
  placed : ∀ i c, chains[i]? = some c → ∀ x ∈ c, place x.2 = i
  apart : (chains.flatten.map Prod.fst).Nodup

namespace Table

variable {place : β → ℕ} {mem mem' : α → Option (Cell α β)} {heads : List (Option α)}
  {chains : List (List (α × β))} {i : ℕ} {h : Option α} {c : List (α × β)}

theorem length_eq (ht : Table place mem heads chains) : heads.length = chains.length :=
  ht.chain.length_eq

theorem chain_at (ht : Table place mem heads chains) (hi : heads[i]? = some h) :
    ∃ c, chains[i]? = some c ∧ Chain mem h c := by
  obtain ⟨hlt, rfl⟩ := List.getElem?_eq_some_iff.mp hi
  have hlt' : i < chains.length := ht.length_eq ▸ hlt
  exact ⟨chains[i], List.getElem?_eq_getElem hlt', ht.chain.get hlt hlt'⟩

theorem mem_chain (ht : Table place mem heads chains) (hc : chains[i]? = some c) {x : α × β}
    (hx : x ∈ chains.flatten) (hplace : place x.2 = i) : x ∈ c := by
  obtain ⟨c', hc', hxc⟩ := List.mem_flatten.mp hx
  obtain ⟨j, hj⟩ := List.mem_iff_getElem?.mp hc'
  have hji : j = i := (ht.placed j c' hj x hxc).symm.trans hplace
  rw [hji, hc] at hj
  cases hj
  exact hxc

theorem nodup_chain (ht : Table place mem heads chains) (hc : chains[i]? = some c) :
    (c.map Prod.fst).Nodup := by
  have h := (flatten_perm_of_getElem? hc).map Prod.fst |>.nodup_iff.mp ht.apart
  rw [List.map_append] at h
  exact h.of_append_left

theorem frame (ht : Table place mem heads chains)
    (hmem : ∀ x ∈ chains.flatten, mem' x.1 = mem x.1) : Table place mem' heads chains :=
  ⟨Chain.frame_all ht.chain hmem, ht.placed, ht.apart⟩

theorem live (ht : Table place mem heads chains) {x : α × β} (hx : x ∈ chains.flatten) :
    ∃ next, mem x.1 = some ⟨x.2, next⟩ :=
  Chain.live_all ht.chain hx

theorem empty (n : ℕ) :
    Table place mem (List.replicate n none) (List.replicate n ([] : List (α × β))) := by
  refine ⟨?_, ?_, ?_⟩
  · rw [List.forall₂_iff_get]
    simp [Chain]
  · intro i c hc x hx
    rw [List.getElem?_replicate] at hc
    split at hc
    · cases hc
      cases hx
    · cases hc
  · simp

theorem set (ht : Table place mem heads chains) (hc : chains[i]? = some c) {h' : Option α}
    {c' : List (α × β)} (hc' : Chain mem' h' c') (hplaced : ∀ x ∈ c', place x.2 = i)
    (hmem : ∀ x ∈ chains.flatten, x ∉ c → mem' x.1 = mem x.1)
    (hnodup : ((chains.set i c').flatten.map Prod.fst).Nodup) :
    Table place mem' (heads.set i h') (chains.set i c') := by
  refine ⟨?_, ?_, hnodup⟩
  · rw [List.forall₂_iff_get]
    refine ⟨by simp [ht.length_eq], fun j hj hj' => ?_⟩
    simp only [List.get_eq_getElem, List.getElem_set]
    split
    · exact hc'
    · rename_i hne
      simp only [List.length_set] at hj hj'
      refine (ht.chain.get hj hj').frame fun x hx => ?_
      have hxj : place x.2 = j := ht.placed j _ (List.getElem?_eq_getElem hj') x hx
      apply hmem x (List.mem_flatten.mpr ⟨_, List.getElem_mem hj', hx⟩)
      intro hxc
      exact hne ((ht.placed i c hc x hxc).symm.trans hxj)
  · intro j d hd x hx
    rw [List.getElem?_set] at hd
    split at hd
    · rename_i hij
      split at hd
      · cases hd
        rw [hplaced x hx, hij]
      · cases hd
    · exact ht.placed j d hd x hx

theorem unlink (ht : Table place mem heads chains) {pre post : List (α × β)} {x : α × β}
    {h' : Option α} (hc : chains[i]? = some (pre ++ x :: post))
    (hchain : Chain mem' h' (pre ++ post))
    (hmem : ∀ y ∈ chains.flatten, y ∉ pre ++ x :: post → mem' y.1 = mem y.1) :
    Table place mem' (heads.set i h') (chains.set i (pre ++ post)) ∧
      chains.flatten.Perm (x :: (chains.set i (pre ++ post)).flatten) := by
  have hperm : chains.flatten.Perm (x :: (chains.set i (pre ++ post)).flatten) := by
    refine (flatten_perm_of_getElem? hc).trans ?_
    refine List.Perm.trans ?_ ((flatten_set_perm hc).symm.cons x)
    simp
  refine ⟨ht.set hc hchain ?_ hmem ?_, hperm⟩
  · intro y hy
    apply ht.placed i _ hc y
    simp only [List.mem_append, List.mem_cons] at hy ⊢
    tauto
  · have hnodup := (hperm.map Prod.fst).nodup_iff.mp ht.apart
    exact (List.nodup_cons.mp hnodup).2

variable [DecidableEq α]

theorem push (ht : Table place mem heads chains) {p : α} {d : β} (hh : heads[i]? = some h)
    (hc : chains[i]? = some c) (hplace : place d = i) (hp : p ∉ chains.flatten.map Prod.fst) :
    Table place (Function.update mem p (some ⟨d, h⟩)) (heads.set i (some p))
      (chains.set i ((p, d) :: c)) := by
  obtain ⟨c₀, hc₀, hchain⟩ := ht.chain_at hh
  obtain rfl := Option.mem_unique hc₀ hc
  have hsub : ∀ x ∈ c₀, x ∈ chains.flatten := fun x hx =>
    List.mem_flatten.mpr ⟨c₀, List.mem_of_getElem? hc, hx⟩
  refine ht.set hc ⟨rfl, h, by simp, hchain.update ?_ _⟩ ?_ ?_ ?_
  · intro hpc
    obtain ⟨x, hx, rfl⟩ := List.mem_map.mp hpc
    exact hp (List.mem_map_of_mem (hsub x hx))
  · intro x hx
    rcases List.mem_cons.mp hx with rfl | hx
    · exact hplace
    · exact ht.placed i c₀ hc x hx
  · intro x hx _
    apply Function.update_of_ne
    rintro rfl
    exact hp (List.mem_map_of_mem hx)
  · have hperm : (chains.set i ((p, d) :: c₀)).flatten.Perm ((p, d) :: chains.flatten) :=
      flatten_set_perm_of_perm (l := [(p, d)]) hc (List.Perm.refl _)
    rw [(hperm.map Prod.fst).nodup_iff]
    exact List.nodup_cons.mpr ⟨hp, ht.apart⟩

theorem write (ht : Table place mem heads chains) {x : α × β} {next : Option α} {d : β}
    (hx : x ∈ chains.flatten) (hmem : mem x.1 = some ⟨x.2, next⟩) (hplace : place d = place x.2) :
    ∃ chains' rest, Table place (Function.update mem x.1 (some ⟨d, next⟩)) heads chains' ∧
      chains.flatten.Perm (x :: rest) ∧ chains'.flatten.Perm ((x.1, d) :: rest) := by
  obtain ⟨c, hc, hxc⟩ := List.mem_flatten.mp hx
  obtain ⟨i, hi⟩ := List.mem_iff_getElem?.mp hc
  have hi' : i < heads.length := by
    rw [ht.length_eq]
    exact (List.getElem?_eq_some_iff.mp hi).1
  obtain ⟨c', hc', hchain⟩ := ht.chain_at (List.getElem?_eq_getElem hi')
  obtain rfl := Option.mem_unique hc' hi
  obtain ⟨pre, post, rfl⟩ := List.append_of_mem hxc
  have hold : chains.flatten.Perm (x :: (pre ++ post ++ (chains.eraseIdx i).flatten)) := by
    refine (flatten_perm_of_getElem? hi).trans ?_
    simp
  have hnew : (chains.set i (pre ++ (x.1, d) :: post)).flatten.Perm
      ((x.1, d) :: (pre ++ post ++ (chains.eraseIdx i).flatten)) := by
    refine (flatten_set_perm hi).trans ?_
    simp
  have hnodup := (hold.map Prod.fst).nodup_iff.mp ht.apart
  have hset := ht.set hi (hchain.write (ht.nodup_chain hi) hmem d) ?_ ?_ ?_
  · rw [List.set_getElem_self hi'] at hset
    exact ⟨_, _, hset, hold, hnew⟩
  · intro y hy
    rcases List.mem_append.mp hy with hy | hy
    · exact ht.placed i _ hi y (List.mem_append_left _ hy)
    · rcases List.mem_cons.mp hy with rfl | hy
      · exact hplace.trans (ht.placed i _ hi x hxc)
      · exact ht.placed i _ hi y (by simp [hy])
  · intro y hy hyc
    apply Function.update_of_ne
    intro heq
    have hyx : y ∈ pre ++ post ++ (chains.eraseIdx i).flatten := by
      rcases List.mem_cons.mp (hold.mem_iff.mp hy) with rfl | hy
      · exact absurd hxc hyc
      · exact hy
    exact (List.nodup_cons.mp hnodup).1 (heq ▸ List.mem_map_of_mem hyx)
  · rw [(hnew.map Prod.fst).nodup_iff]
    exact hnodup

end Table

end NaiLongKernel.Foundation
