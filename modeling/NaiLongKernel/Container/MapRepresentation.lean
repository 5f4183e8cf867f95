import NaiLongKernel.Foundation.KeyedList
import NaiLongKernel.Container.UnorderedMap

/-!
# What a map object represents

A map object that is not being constructed or destroyed is a table of chains: every key
sits in the bucket of its hash, keys are pairwise inequivalent, and `size_` counts them.
Each operation is described by the table it leaves, and by what it does not touch: the
nodes and the objects of the other maps.
-/
namespace NaiLongKernel.Container

open Foundation

variable {K V : Type} {β : Type}

theorem KeyTraits.equiv (T : KeyTraits K) : KeyEquiv T.keyEqual := ⟨T.refl, T.symm, T.trans⟩

theorem UMap.bucketIndex_congr (T : KeyTraits K) (um : UMap) {a b : K}
    (h : T.keyEqual a b = true) : um.bucketIndex T a = um.bucketIndex T b := by
  rw [bucketIndex, bucketIndex, T.hash_eq a b h]

/-! ## The memory operations -/

section Memory

variable {s : Store K V} {E : MapFault → Store K V → Prop} {m : ℕ} {um : UMap} {p : NodePtr}
  {n : Node K V}

@[simp] theorem wp_getMap {Q : UMap → Store K V → Prop} (h : s.maps m = some um) :
    wp (getMap m) Q E s ↔ Q um s := by
  simp [getMap, h]

@[simp] theorem wp_setMap {um : Option UMap} {Q : Unit → Store K V → Prop} :
    wp (setMap m um) Q E s ↔ Q () { s with maps := Function.update s.maps m um } := by
  simp [setMap]

@[simp] theorem wp_readNode {Q : Node K V → Store K V → Prop} (h : s.nodes p = some n) :
    wp (readNode p) Q E s ↔ Q n s := by
  simp [readNode, h]

@[simp] theorem wp_writeNode {n' : Node K V} {Q : Unit → Store K V → Prop}
    (h : s.nodes p = some n) : wp (writeNode p n') Q E s ↔
      Q () { s with nodes := Function.update s.nodes p (some n') } := by
  simp [writeNode, h]

@[simp] theorem wp_deleteNode {Q : Unit → Store K V → Prop} (h : s.nodes p = some n) :
    wp (deleteNode p) Q E s ↔ Q () { s with nodes := Function.update s.nodes p none } := by
  simp [deleteNode, h]

@[simp] theorem wp_readBucket {buckets : List (Option NodePtr)} {i : ℕ} {h : Option NodePtr}
    {Q : Option NodePtr → Store K V → Prop} (hi : buckets[i]? = some h) :
    wp (readBucket buckets i) Q E s ↔ Q h s := by
  simp [readBucket, hi]

theorem wp_bucketIndex {T : KeyTraits K} {key : K} {Q : ℕ → Store K V → Prop}
    (h : um.bucketCount ≠ 0) : wp (bucketIndex T um key) Q E s ↔ Q (um.bucketIndex T key) s := by
  simp only [bucketIndex, if_neg h, wp_pure]

/-- The only fault that the operations below can end with. -/
def OutOfMemory (e : MapFault) (_ : Store K V) : Prop := e = .outOfMemory

theorem wp_newNode (A : Allocator) {Q : NodePtr → Store K V → Prop}
    (h : ∀ p, s.nodes p = none →
      Q p { s with nodes := Function.update s.nodes p (some n), calls := s.calls + 1 }) :
    wp (newNode A n) Q OutOfMemory s := by
  simp only [newNode, wp_bind, wp_get]
  cases hp : A.node s.calls fun p => (s.nodes p).isSome with
  | none => exact (wp_throw _).mpr rfl
  | some p =>
    have hfresh := A.node_fresh hp
    rw [Option.isSome_eq_false_iff, Option.isNone_iff_eq_none] at hfresh
    exact (wp_bind _ _ _).mpr ((wp_modify _ _).mpr ((wp_pure _).mpr (h p hfresh)))

/-- There is no memory, or an array of `n` buckets does not fit in the address space. -/
def Exhausted (n : BitVec 64) (e : MapFault) (_ : Store K V) : Prop :=
  e = .outOfMemory ∨ 2 ^ 61 ≤ n.toNat ∧ e = .outOfBounds

theorem Exhausted.outOfMemory {count : BitVec 64} (hcount : count.toNat < 2 ^ 61) (e : MapFault)
    (s : Store K V) (h : Exhausted count e s) : OutOfMemory e s :=
  h.resolve_right fun hlarge => absurd hlarge.1 (not_le.mpr hcount)

/-- A request below the limit does not wrap, so the array has room for every bucket. -/
theorem wp_newBuckets (A : Allocator) {count : BitVec 64}
    {Q : List (Option NodePtr) → Store K V → Prop} (hmem : E .outOfMemory s)
    (hroom : 2 ^ 61 ≤ count.toNat → E .outOfBounds { s with calls := s.calls + 1 })
    (h : count.toNat < 2 ^ 61 →
      Q (List.replicate count.toNat none) { s with calls := s.calls + 1 }) :
    wp (newBuckets A count) Q E s := by
  have hbytes : (count * 8).toNat = count.toNat * 8 % 2 ^ 64 := BitVec.toNat_mul ..
  simp only [newBuckets, wp_bind, wp_get, wp_ite, wp_throw, wp_modify, wp_pure]
  split
  · exact hmem
  · split
    · exact hroom (by omega)
    · exact h (by omega)

end Memory

/-! ## The representation -/

/-- The nodes of a map, bucket by bucket. -/
abbrev Chains (K V : Type) := List (List (NodePtr × K × V))

/-- The addresses of the nodes. -/
def ptrs (cs : Chains K V) : List NodePtr := cs.flatten.map Prod.fst

/-- The pairs in the nodes. -/
def entries (cs : Chains K V) : List (K × V) := cs.flatten.map Prod.snd

/-- The links of a map object, which may still be without buckets. -/
structure Linked (T : KeyTraits K) (mem : NodePtr → Option (Node K V)) (um : UMap)
    (cs : Chains K V) : Prop where
  table : Table (fun d => um.bucketIndex T d.1) mem um.buckets cs
  keys : DistinctKeys T.keyEqual (entries cs)
  size : um.size.toNat = cs.flatten.length

/-- A map object between two operations. -/
structure Holds (T : KeyTraits K) (mem : NodePtr → Option (Node K V)) (um : UMap)
    (cs : Chains K V) : Prop extends Linked T mem um cs where
  count : um.buckets.length = um.bucketCount.toNat
  pos : 0 < um.bucketCount.toNat
  bound : um.bucketCount.toNat < 2 ^ 61

/-- From `s` to `t` an operation of the map `m` writes only nodes of this map, before
`ps` and afterwards `ps'`, and nodes that were free. -/
structure Touches (m : ℕ) (ps : List NodePtr) (s t : Store K V) (ps' : List NodePtr) : Prop where
  maps : ∀ m' ≠ m, t.maps m' = s.maps m'
  nodes : ∀ p, p ∉ ps → s.nodes p ≠ none → t.nodes p = s.nodes p
  fresh : ∀ p ∈ ps', p ∈ ps ∨ s.nodes p = none

namespace Touches

variable {m : ℕ} {ps ps' ps'' : List NodePtr} {s t u : Store K V}

theorem refl (m : ℕ) (ps : List NodePtr) (s : Store K V) : Touches m ps s s ps :=
  ⟨fun _ _ => rfl, fun _ _ _ => rfl, fun _ hp => Or.inl hp⟩

theorem apart (h : Touches m ps s t ps') {p : NodePtr} (hlive : s.nodes p ≠ none)
    (hp : p ∉ ps) : p ∉ ps' :=
  fun hp' => (h.fresh p hp').elim hp hlive

theorem trans (h : Touches m ps s t ps') (h' : Touches m ps' t u ps'') :
    Touches m ps s u ps'' := by
  refine ⟨fun m' hm' => (h'.maps m' hm').trans (h.maps m' hm'), ?_, ?_⟩
  · intro p hp hlive
    have hst := h.nodes p hp hlive
    rw [h'.nodes p (h.apart hlive hp) (by rwa [hst]), hst]
  · intro p hp
    rcases h'.fresh p hp with hp | hp
    · exact h.fresh p hp
    · by_contra hno
      rw [not_or] at hno
      exact hno.2 ((h.nodes p hno.1 hno.2).symm.trans hp)

theorem chains (h : Touches m ps s t ps') {heads : List (Option NodePtr)}
    {d : List (List (NodePtr × K × V))} (hd : List.Forall₂ (Chain s.nodes) heads d)
    (hapart : ∀ x ∈ d.flatten, x.1 ∉ ps) : List.Forall₂ (Chain t.nodes) heads d := by
  apply Chain.frame_all hd
  intro x hx
  obtain ⟨next, hlive⟩ := Chain.live_all hd hx
  exact h.nodes x.1 (hapart x hx) (by simp [hlive])

end Touches

theorem entries_perm {cs cs' : Chains K V} (h : cs.flatten.Perm cs'.flatten) :
    (entries cs).Perm (entries cs') := h.map _

namespace Linked

variable {T : KeyTraits K} {mem : NodePtr → Option (Node K V)} {um : UMap} {cs : Chains K V}

/-- Nodes do not overlap, so there are at most as many as addresses. -/
theorem length_le (h : Linked T mem um cs) : cs.flatten.length ≤ 2 ^ 60 := by
  have hinj : Function.Injective (BitVec.toFin (w := 60)) := fun _ _ => BitVec.eq_of_toFin_eq
  have hcard := (h.table.apart.map hinj).length_le_card
  rwa [List.length_map, List.length_map, Fintype.card_fin] at hcard

theorem length_lt_fuel (h : Linked T mem um cs) {l : List (NodePtr × K × V)} (hl : l ∈ cs) :
    l.length < um.fuel := by
  have hle := (List.sublist_flatten_of_mem hl).length_le
  have hsize := h.size
  rw [UMap.fuel]
  omega

theorem unset (T : KeyTraits K) (mem : NodePtr → Option (Node K V)) :
    Linked T mem .unset [] :=
  ⟨Table.empty 0, List.Pairwise.nil, rfl⟩

end Linked

theorem Touches.linked {m : ℕ} {ps ps' : List NodePtr} {s t : Store K V} {T : KeyTraits K}
    {um : UMap} {cs : Chains K V} (h : Touches m ps s t ps') (hc : Linked T s.nodes um cs)
    (hapart : (ptrs cs).Disjoint ps) : Linked T t.nodes um cs := by
  refine { hc with table := hc.table.frame fun x hx => ?_ }
  obtain ⟨next, hlive⟩ := hc.table.live hx
  exact h.nodes x.1 (hapart (List.mem_map_of_mem hx)) (by simp [hlive])

theorem Touches.unset (m : ℕ) (s : Store K V) :
    Touches m [] s { s with maps := Function.update s.maps m (some .unset) } [] :=
  ⟨fun _ hm' => Function.update_of_ne hm' _ _, fun _ _ _ => rfl, fun _ hp => Or.inl hp⟩

namespace Holds

variable {T : KeyTraits K} {s : Store K V} {um : UMap} {cs : Chains K V}
  {mem mem' : NodePtr → Option (Node K V)}

theorem live (h : Holds T mem um cs) : ∀ p ∈ ptrs cs, mem p ≠ none := by
  intro p hp
  obtain ⟨x, hx, rfl⟩ := List.mem_map.mp hp
  obtain ⟨next, hlive⟩ := h.table.live hx
  simp [hlive]

theorem frame (h : Holds T mem um cs) (hmem : ∀ p ∈ ptrs cs, mem' p = mem p) :
    Holds T mem' um cs :=
  { h with table := h.table.frame fun x hx => hmem x.1 (List.mem_map_of_mem hx) }

theorem bucketIndex_lt (h : Holds T s.nodes um cs) (key : K) :
    um.bucketIndex T key < um.buckets.length := by
  rw [h.count, UMap.bucketIndex, BitVec.toNat_umod]
  exact Nat.mod_lt _ h.pos

theorem bucketCount_ne (h : Holds T s.nodes um cs) : um.bucketCount ≠ 0 := by
  intro hzero
  have hpos := h.pos
  rw [hzero] at hpos
  exact absurd hpos (lt_irrefl 0)

theorem bucket (h : Holds T s.nodes um cs) (key : K) :
    ∃ hd l, um.buckets[um.bucketIndex T key]? = some hd ∧
      cs[um.bucketIndex T key]? = some l ∧ Chain s.nodes hd l := by
  have hhd := List.getElem?_eq_getElem (h.bucketIndex_lt key)
  obtain ⟨l, hl, hchain⟩ := h.table.chain_at hhd
  exact ⟨_, l, hhd, hl, hchain⟩

theorem mem_bucket (h : Holds T s.nodes um cs) {key : K} {l : List (NodePtr × K × V)}
    (hl : cs[um.bucketIndex T key]? = some l) {x : NodePtr × K × V} (hx : x ∈ cs.flatten)
    (hkey : T.keyEqual x.2.1 key = true) : x ∈ l :=
  h.table.mem_chain hl hx (um.bucketIndex_congr T hkey)

end Holds

/-! ## Several objects -/

/-- Each object has the property, in nodes of its own. -/
structure Separate {β : Type} (R : (NodePtr → Option (Node K V)) → Option UMap → β → Chains K V → Prop)
    (s : Store K V) (a : ℕ → β) (chains : ℕ → Chains K V) : Prop where
  slot : ∀ m, R s.nodes (s.maps m) (a m) (chains m)
  apart : ∀ m m', m ≠ m' → (ptrs (chains m)).Disjoint (ptrs (chains m'))

/-- One object gets other chains, and nothing else is touched. -/
theorem Separate.update
    {R : (NodePtr → Option (Node K V)) → Option UMap → β → Chains K V → Prop} {s t : Store K V}
    {a : ℕ → β} {b : β} {chains : ℕ → Chains K V} {cs : Chains K V} {m : ℕ}
    (h : Separate R s a chains)
    (hlive : ∀ {mem um b cs}, R mem um b cs → ∀ p ∈ ptrs cs, mem p ≠ none)
    (hframe : ∀ {mem mem' um b cs}, R mem um b cs → (∀ p ∈ ptrs cs, mem' p = mem p) →
      R mem' um b cs)
    (htouch : Touches m (ptrs (chains m)) s t (ptrs cs)) (hslot : R t.nodes (t.maps m) b cs) :
    Separate R t (Function.update a m b) (Function.update chains m cs) := by
  have hother : ∀ m' ≠ m, ∀ p ∈ ptrs (chains m'), p ∉ ptrs (chains m) ∧ s.nodes p ≠ none :=
    fun m' hm' p hp => ⟨fun hp' => h.apart m' m hm' hp hp', hlive (h.slot m') p hp⟩
  have hdisj : ∀ m' ≠ m, (ptrs cs).Disjoint (ptrs (chains m')) := by
    intro m' hm' p hp hp'
    obtain ⟨hno, hlive⟩ := hother m' hm' p hp'
    exact htouch.apart hlive hno hp
  refine ⟨fun m' => ?_, fun m₁ m₂ hne => ?_⟩
  · by_cases hm' : m' = m
    · subst hm'
      simpa using hslot
    · rw [Function.update_of_ne hm', Function.update_of_ne hm', htouch.maps m' hm']
      refine hframe (h.slot m') fun p hp => ?_
      obtain ⟨hno, hlive⟩ := hother m' hm' p hp
      exact htouch.nodes p hno hlive
  · by_cases h₁ : m₁ = m
    · subst h₁
      rw [Function.update_self, Function.update_of_ne (Ne.symm hne)]
      exact hdisj m₂ (Ne.symm hne)
    · by_cases h₂ : m₂ = m
      · subst h₂
        rw [Function.update_self, Function.update_of_ne h₁]
        exact (hdisj m₁ h₁).symm
      · rw [Function.update_of_ne h₁, Function.update_of_ne h₂]
        exact h.apart m₁ m₂ hne

/-! ## Search -/

/-- What a search for a key returns. -/
inductive Found (T : KeyTraits K) (cs : Chains K V) (key : K) : Option NodePtr → Prop where
  | absent : (∀ x ∈ cs.flatten, T.keyEqual x.2.1 key = false) → Found T cs key none
  | present (x : NodePtr × K × V) : x ∈ cs.flatten → T.keyEqual x.2.1 key = true →
      Found T cs key (some x.1)

section Search

variable {T : KeyTraits K} {s : Store K V} {E : MapFault → Store K V → Prop} {um : UMap}
  {cs : Chains K V}

theorem wp_searchChain {key : K} {hd : Option NodePtr} {l : List (NodePtr × K × V)} {fuel : ℕ}
    (hl : Chain s.nodes hd l) (hfuel : l.length < fuel) :
    wp (searchChain T key fuel hd)
      (fun r t => t = s ∧ r = (l.find? fun x => T.keyEqual x.2.1 key).map Prod.fst) E s := by
  induction l generalizing hd fuel with
  | nil =>
    obtain ⟨fuel, rfl⟩ := Nat.exists_eq_add_of_lt hfuel
    obtain rfl : hd = none := hl
    simp [searchChain]
  | cons x l ih =>
    obtain ⟨fuel, rfl⟩ : ∃ n, fuel = n + 1 := Nat.exists_eq_add_one.mpr (by omega)
    obtain ⟨rfl, next, hx, hrest⟩ := hl
    simp only [searchChain, wp_bind, wp_readNode hx, wp_ite, List.find?_cons]
    split
    · rename_i hkey
      simp [hkey]
    · rename_i hkey
      rw [Bool.not_eq_true] at hkey
      simpa only [hkey] using ih hrest (by simpa using hfuel)

theorem Holds.wp_search (h : Holds T s.nodes um cs) {key : K} {hd : Option NodePtr}
    (hhd : um.buckets[um.bucketIndex T key]? = some hd) :
    wp (searchChain T key um.fuel hd) (fun r t => t = s ∧ Found T cs key r) E s := by
  obtain ⟨l, hl, hchain⟩ := h.table.chain_at hhd
  refine (wp_searchChain hchain (h.length_lt_fuel (List.mem_of_getElem? hl))).imp ?_
  rintro r t ⟨rfl, rfl⟩
  refine ⟨rfl, ?_⟩
  cases hfind : l.find? fun x => T.keyEqual x.2.1 key with
  | none =>
    refine .absent fun x hx => ?_
    by_contra hkey
    rw [Bool.not_eq_false] at hkey
    exact List.find?_eq_none.mp hfind x (h.mem_bucket hl hx hkey) hkey
  | some x =>
    have hx := List.mem_of_find?_eq_some hfind
    exact .present x (List.mem_flatten.mpr ⟨l, List.mem_of_getElem? hl, hx⟩)
      (by simpa using List.find?_some hfind)

end Search

end NaiLongKernel.Container
