import NaiLongKernel.Container.MapRepresentation

/-!
# The operations of a map object

What each operation makes of the chains of its map. The loops move one node at a time; the
invariants say which nodes are still to be moved, and that these are nowhere in the part
already built.
-/
namespace NaiLongKernel.Container

open Foundation

variable {K V : Type} {T : KeyTraits K} {m : ℕ} {um : UMap} {cs : Chains K V} {s : Store K V}
  {E : MapFault → Store K V → Prop}

/-- The rule for a loop along a chain: the body leaves the rest of the chain in place. -/
theorem wp_foldChain {β : Type}
    {body : β → NodePtr → Node K V → MapM K V β}
    (I : List (NodePtr × K × V) → β → Store K V → Prop)
    (hbody : ∀ x rest next acc t, I (x :: rest) acc t → t.nodes x.1 = some ⟨x.2, next⟩ →
      Chain t.nodes next rest →
      wp (body acc x.1 ⟨x.2, next⟩) (fun acc u => I rest acc u ∧ Chain u.nodes next rest) E t)
    {fuel : ℕ} {hd : Option NodePtr} {l : List (NodePtr × K × V)} (acc : β)
    (hl : Chain s.nodes hd l) (hfuel : l.length < fuel) (hI : I l acc s) :
    wp (foldChain body fuel acc hd) (I []) E s := by
  induction l generalizing hd fuel acc s with
  | nil =>
    obtain ⟨fuel, rfl⟩ := Nat.exists_eq_add_of_lt hfuel
    obtain rfl : hd = none := hl
    exact (wp_pure acc).mpr hI
  | cons x l ih =>
    obtain ⟨fuel, rfl⟩ : ∃ n, fuel = n + 1 := Nat.exists_eq_add_one.mpr (by omega)
    obtain ⟨rfl, next, hx, hrest⟩ := hl
    simp only [foldChain, wp_bind, wp_readNode hx]
    refine (hbody x l next acc s hI hx hrest).imp ?_
    intro acc' t ht
    exact ih acc' ht.2 (by simpa using hfuel) ht.1

/-! ## Rehash -/

/-- The new array holds all nodes of `all` but those `todo`; no other node has changed. -/
structure Relinking (T : KeyTraits K) (count : BitVec 64) (s₀ : Store K V)
    (all todo : List (NodePtr × K × V)) (built : List (Option NodePtr)) (s : Store K V) :
    Prop where
  table : ∃ cs, Table (fun d => (T.hash d.1 % count).toNat) s.nodes built cs ∧
    (todo ++ cs.flatten).Perm all
  length : built.length = count.toNat
  maps : s.maps = s₀.maps
  nodes : ∀ p, p ∉ all.map Prod.fst → s.nodes p = s₀.nodes p

theorem wp_relink {count : BitVec 64} {s₀ : Store K V}
    {all todo : List (NodePtr × K × V)} {built : List (Option NodePtr)} {x : NodePtr × K × V}
    {next : Option NodePtr} (hall : (all.map Prod.fst).Nodup) (hpos : 0 < count.toNat)
    (h : Relinking T count s₀ all (x :: todo) built s) (hx : s.nodes x.1 = some ⟨x.2, next⟩) :
    wp (relink T count built x.1 ⟨x.2, next⟩) (fun built' t =>
      Relinking T count s₀ all todo built' t ∧
        ∀ y ∈ todo, t.nodes y.1 = s.nodes y.1) E s := by
  obtain ⟨cs, htable, hperm⟩ := h.table
  have hidx : (T.hash x.2.1 % count).toNat < built.length := by
    rw [h.length, BitVec.toNat_umod]
    exact Nat.mod_lt _ hpos
  obtain ⟨l, hl, -⟩ := htable.chain_at (List.getElem?_eq_getElem hidx)
  have hnodup := (hperm.map Prod.fst).nodup_iff.mpr hall
  rw [List.cons_append, List.map_cons, List.nodup_cons, List.map_append, List.mem_append,
    not_or] at hnodup
  simp only [relink, wp_bind, wp_readBucket (List.getElem?_eq_getElem hidx), wp_writeNode hx,
    wp_pure]
  refine ⟨⟨⟨_, htable.push (List.getElem?_eq_getElem hidx) hl rfl hnodup.1.2, ?_⟩, ?_, h.maps,
    ?_⟩, ?_⟩
  · have hpush := flatten_set_perm_of_perm (l := [x]) hl (List.Perm.refl ([x] ++ l))
    exact ((hpush.append_left todo).trans List.perm_middle).trans hperm
  · rw [List.length_set, h.length]
  · intro p hp
    refine (Function.update_of_ne ?_ _ _).trans (h.nodes p hp)
    rintro rfl
    exact hp (List.mem_map_of_mem (hperm.mem_iff.mp List.mem_cons_self))
  · intro y hy
    apply Function.update_of_ne
    intro heq
    exact hnodup.1.1 (heq ▸ List.mem_map_of_mem hy)

theorem wp_relink_buckets {count : BitVec 64}
    {s₀ : Store K V} {all : List (NodePtr × K × V)} {heads built : List (Option NodePtr)}
    {fuel : ℕ} (hall : (all.map Prod.fst).Nodup) (hpos : 0 < count.toNat)
    (hc : List.Forall₂ (Chain s.nodes) heads cs) (hfuel : ∀ l ∈ cs, l.length < fuel)
    (h : Relinking T count s₀ all cs.flatten built s) :
    wp (heads.foldlM (fun acc hd => foldChain (relink T count) fuel acc hd) built)
      (fun built t => Relinking T count s₀ all [] built t) E s := by
  induction cs generalizing heads built s with
  | nil =>
    cases hc
    simpa using h
  | cons l cs ih =>
    cases hc with
    | @cons hd _ heads _ hl hrest =>
      rw [List.foldlM_cons, wp_bind]
      -- the nodes of the later buckets are not moved by this one
      refine (wp_foldChain
        (fun rest built t => Relinking T count s₀ all (rest ++ cs.flatten) built t ∧
          List.Forall₂ (Chain t.nodes) heads cs) ?_ built hl (hfuel l List.mem_cons_self)
        ⟨h, hrest⟩).imp ?_
      · intro x rest next built t ht hx hnext
        refine (wp_relink hall hpos ht.1 hx).imp ?_
        intro built' u hu
        exact ⟨⟨hu.1, Chain.frame_all ht.2 fun y hy => hu.2 y (List.mem_append_right _ hy)⟩,
          hnext.frame fun y hy => hu.2 y (List.mem_append_left _ hy)⟩
      · intro built' t ht
        exact ih ht.2 (fun l' hl' => hfuel l' (List.mem_cons_of_mem _ hl')) ht.1

theorem wp_rehash (A : Allocator) {n : BitVec 64} (hum : s.maps m = some um)
    (h : Linked T s.nodes um cs) :
    wp (rehash A T m n) (fun _ t => ∃ um' cs', t.maps m = some um' ∧ Holds T t.nodes um' cs' ∧
      cs'.flatten.Perm cs.flatten ∧ Touches m (ptrs cs) s t (ptrs cs')) (Exhausted n) s := by
  simp only [rehash]
  generalize hcount : (if n = 0 then kDefaultBucketCount else n) = count
  obtain ⟨hpos, hbound⟩ : 0 < count.toNat ∧ (2 ^ 61 ≤ count.toNat → 2 ^ 61 ≤ n.toNat) := by
    rw [← hcount]
    split
    · exact ⟨by decide, fun h => absurd h (by decide)⟩
    · rename_i hne
      exact ⟨Nat.pos_of_ne_zero fun hz => hne (BitVec.eq_of_toNat_eq hz), id⟩
  rw [wp_bind]
  refine wp_newBuckets A (Or.inl rfl) (fun hlarge => Or.inr ⟨hbound hlarge, rfl⟩) fun hlt => ?_
  have hstart : Relinking T count s cs.flatten cs.flatten (List.replicate count.toNat none)
      { s with calls := s.calls + 1 } :=
    ⟨⟨_, Table.empty count.toNat, by simp⟩, by simp, rfl, fun _ _ => rfl⟩
  rw [wp_bind, wp_getMap (s := { s with calls := s.calls + 1 }) hum, wp_bind]
  refine (wp_relink_buckets (s := { s with calls := s.calls + 1 }) h.table.apart hpos
    h.table.chain (fun l hl => h.length_lt_fuel hl) hstart).imp ?_
  intro built t ht
  obtain ⟨cs', htable, hperm⟩ := ht.table
  rw [wp_setMap]
  have hkeys := (T.equiv.distinct_perm (entries_perm hperm)).mpr h.keys
  refine ⟨_, cs', Function.update_self .., ⟨⟨htable, hkeys, ?_⟩, ht.length, hpos, hlt⟩, hperm, ?_⟩
  · exact h.size.trans hperm.length_eq.symm
  · refine ⟨?_, fun p hp _ => ht.nodes p hp, ?_⟩
    · intro m' hm'
      refine (Function.update_of_ne hm' _ _).trans ?_
      rw [ht.maps]
    · intro p hp
      exact Or.inl ((hperm.map Prod.fst).mem_iff.mp hp)

/-! ## Clear -/

/-- Only nodes of `all` have been deleted, and none of those `todo`. -/
structure Clearing (s₀ : Store K V) (all todo : List (NodePtr × K × V)) (s : Store K V) :
    Prop where
  nodup : (todo.map Prod.fst).Nodup
  subset : ∀ x ∈ todo, x ∈ all
  maps : s.maps = s₀.maps
  nodes : ∀ p, p ∉ all.map Prod.fst → s.nodes p = s₀.nodes p

theorem wp_deleteNode_clearing {s₀ : Store K V}
    {all todo : List (NodePtr × K × V)} {x : NodePtr × K × V} {next : Option NodePtr}
    (h : Clearing s₀ all (x :: todo) s) (hx : s.nodes x.1 = some ⟨x.2, next⟩) :
    wp (deleteNode x.1) (fun _ t =>
      Clearing s₀ all todo t ∧ ∀ y ∈ todo, t.nodes y.1 = s.nodes y.1) E s := by
  have hnodup := List.nodup_cons.mp h.nodup
  rw [wp_deleteNode hx]
  refine ⟨⟨hnodup.2, fun y hy => h.subset y (List.mem_cons_of_mem _ hy), h.maps, ?_⟩, ?_⟩
  · intro p hp
    refine (Function.update_of_ne ?_ _ _).trans (h.nodes p hp)
    rintro rfl
    exact hp (List.mem_map_of_mem (h.subset x List.mem_cons_self))
  · intro y hy
    apply Function.update_of_ne
    intro heq
    exact hnodup.1 (heq ▸ List.mem_map_of_mem hy)

theorem wp_clear_buckets {s₀ : Store K V}
    {all : List (NodePtr × K × V)} {heads : List (Option NodePtr)} {fuel : ℕ}
    (hc : List.Forall₂ (Chain s.nodes) heads cs) (hfuel : ∀ l ∈ cs, l.length < fuel)
    (h : Clearing s₀ all cs.flatten s) :
    wp (heads.mapM fun hd => do
        foldChain (fun _ p _ => deleteNode p) fuel () hd
        return (none : Option NodePtr))
      (fun emptied t => emptied = List.replicate heads.length none ∧ Clearing s₀ all [] t) E s := by
  induction cs generalizing heads s with
  | nil =>
    cases hc
    simpa using h
  | cons l cs ih =>
    cases hc with
    | @cons hd _ heads _ hl hrest =>
      simp only [List.mapM_cons, wp_bind, wp_pure]
      refine (wp_foldChain
        (fun rest _ t => Clearing s₀ all (rest ++ cs.flatten) t ∧
          List.Forall₂ (Chain t.nodes) heads cs) ?_ () hl (hfuel l List.mem_cons_self)
        ⟨h, hrest⟩).imp ?_
      · intro x rest next _ t ht hx hnext
        refine (wp_deleteNode_clearing ht.1 hx).imp ?_
        intro _ u hu
        exact ⟨⟨hu.1, Chain.frame_all ht.2 fun y hy => hu.2 y (List.mem_append_right _ hy)⟩,
          hnext.frame fun y hy => hu.2 y (List.mem_append_left _ hy)⟩
      · intro _ t ht
        refine (ih ht.2 (fun l' hl' => hfuel l' (List.mem_cons_of_mem _ hl')) ht.1).imp ?_
        rintro emptied u ⟨rfl, hu⟩
        exact ⟨rfl, hu⟩

theorem wp_clear (hum : s.maps m = some um)
    (h : Linked T s.nodes um cs) :
    wp (clear m) (fun _ t =>
      t.maps m = some { um with buckets := List.replicate um.buckets.length none, size := 0 } ∧
        Touches m (ptrs cs) s t []) E s := by
  simp only [clear, wp_bind, wp_getMap hum, wp_setMap]
  have hstart : Clearing s cs.flatten cs.flatten s :=
    ⟨h.table.apart, fun _ hx => hx, rfl, fun _ _ => rfl⟩
  refine (wp_clear_buckets h.table.chain (fun l hl => h.length_lt_fuel hl) hstart).imp ?_
  rintro emptied t ⟨rfl, ht⟩
  refine ⟨Function.update_self .., ?_, fun p hp _ => ht.nodes p hp, fun p hp => by cases hp⟩
  intro m' hm'
  refine (Function.update_of_ne hm' _ _).trans ?_
  rw [ht.maps]

theorem ptrs_replicate_nil (n : ℕ) : ptrs (List.replicate n [] : Chains K V) = [] := by simp [ptrs]

theorem Holds.cleared (h : Holds T s.nodes um cs) (t : Store K V) :
    Holds T t.nodes { um with buckets := List.replicate um.buckets.length none, size := 0 }
      (List.replicate um.buckets.length []) := by
  refine ⟨⟨Table.empty _, ?_, ?_⟩, ?_, h.pos, h.bound⟩
  · simp [entries, DistinctKeys]
  · simp
  · simpa using h.count

theorem wp_destroy (hum : s.maps m = some um)
    (h : Linked T s.nodes um cs) :
    wp (destroy m) (fun _ t => t.maps m = some .unset ∧ Touches m (ptrs cs) s t []) E s := by
  rw [destroy, wp_bind]
  refine (wp_clear hum h).imp ?_
  rintro _ t ⟨ht, htouch⟩
  simp only [wp_bind, wp_getMap ht, wp_setMap]
  refine ⟨Function.update_self .., ?_, htouch.nodes, htouch.fresh⟩
  intro m' hm'
  exact (Function.update_of_ne hm' _ _).trans (htouch.maps m' hm')

/-! ## Insert -/

/-- What `insert` returns, and what it makes of the chains. -/
inductive Inserted (T : KeyTraits K) (value : K × V) (cs cs' : Chains K V) :
    Option NodePtr → Bool → Prop where
  | present (x : NodePtr × K × V) : x ∈ cs.flatten → T.keyEqual x.2.1 value.1 = true → cs' = cs →
      Inserted T value cs cs' (some x.1) false
  | new (p : NodePtr) : (∀ x ∈ cs.flatten, T.keyEqual x.2.1 value.1 = false) →
      cs'.flatten.Perm ((p, value) :: cs.flatten) → Inserted T value cs cs' (some p) true

/-- The chains after a new node was put in front of its bucket, before the array grows. -/
theorem Holds.push (h : Holds T s.nodes um cs) {value : K × V} {hd : Option NodePtr}
    {l : List (NodePtr × K × V)} {p : NodePtr}
    (hhd : um.buckets[um.bucketIndex T value.1]? = some hd)
    (hl : cs[um.bucketIndex T value.1]? = some l)
    (habsent : ∀ x ∈ cs.flatten, T.keyEqual x.2.1 value.1 = false) (hp : s.nodes p = none) :
    Holds T (Function.update s.nodes p (some ⟨value, hd⟩))
      { um with buckets := um.buckets.set (um.bucketIndex T value.1) (some p), size := um.size + 1 }
      (cs.set (um.bucketIndex T value.1) ((p, value) :: l)) := by
  have hpc : p ∉ cs.flatten.map Prod.fst := by
    intro hpc
    obtain ⟨x, hx, rfl⟩ := List.mem_map.mp hpc
    obtain ⟨next, hlive⟩ := h.table.live hx
    rw [hp] at hlive
    cases hlive
  have hperm : (cs.set (um.bucketIndex T value.1) ((p, value) :: l)).flatten.Perm
      ((p, value) :: cs.flatten) :=
    flatten_set_perm_of_perm (l := [(p, value)]) hl (List.Perm.refl _)
  refine ⟨⟨h.table.push hhd hl rfl hpc, ?_, ?_⟩, ?_, h.pos, h.bound⟩
  · rw [entries, T.equiv.distinct_perm (hperm.map Prod.snd)]
    refine List.pairwise_cons.mpr ⟨?_, h.keys⟩
    intro e he
    obtain ⟨x, hx, rfl⟩ := List.mem_map.mp he
    rw [T.equiv.comm]
    exact habsent x hx
  · have hle := h.length_le
    have hsize := h.size
    have h1 : (1 : BitVec 64).toNat = 1 := rfl
    rw [hperm.length_eq, List.length_cons, BitVec.toNat_add, hsize, h1]
    omega
  · rw [List.length_set]
    exact h.count

theorem wp_insert (A : Allocator) {value : K × V} (hum : s.maps m = some um)
    (h : Holds T s.nodes um cs) :
    wp (insert A T m value) (fun r t => ∃ um' cs', t.maps m = some um' ∧ Holds T t.nodes um' cs' ∧
      Touches m (ptrs cs) s t (ptrs cs') ∧ Inserted T value cs cs' r.1.node r.2 ∧
      r.1.bucketIdx = um'.bucketIndex T value.1) OutOfMemory s := by
  obtain ⟨hd, l, hhd, hl, -⟩ := h.bucket value.1
  simp only [insert, wp_bind, wp_getMap hum, wp_bucketIndex h.bucketCount_ne, wp_readBucket hhd]
  refine (h.wp_search hhd).imp ?_
  rintro r t ⟨rfl, hfound⟩
  cases hfound with
  | present x hx hkey =>
    exact (wp_pure _).mpr ⟨um, cs, hum, h, .refl .., .present x hx hkey rfl, rfl⟩
  | absent habsent =>
    simp only [wp_bind]
    apply wp_newNode A
    intro p hp
    have hpush := h.push hhd hl habsent hp
    have hperm : (cs.set (um.bucketIndex T value.1) ((p, value) :: l)).flatten.Perm
        ((p, value) :: cs.flatten) :=
      flatten_set_perm_of_perm (l := [(p, value)]) hl (List.Perm.refl _)
    rw [wp_setMap, wp_ite]
    set um₁ : UMap := { um with
      buckets := um.buckets.set (um.bucketIndex T value.1) (some p), size := um.size + 1 }
    set cs₁ := cs.set (um.bucketIndex T value.1) ((p, value) :: l)
    set t₁ : Store K V := ⟨Function.update t.nodes p (some ⟨value, hd⟩),
      Function.update t.maps m (some um₁), t.calls + 1⟩
    have hum₁ : t₁.maps m = some um₁ := Function.update_self ..
    have htouch : Touches m (ptrs cs) t t₁ (ptrs cs₁) := by
      refine ⟨fun m' hm' => Function.update_of_ne hm' _ _, ?_, ?_⟩
      · intro q _ hlive
        apply Function.update_of_ne
        rintro rfl
        exact hlive hp
      · intro q hq
        rcases List.mem_cons.mp ((hperm.map Prod.fst).mem_iff.mp hq) with rfl | hq
        · exact Or.inr hp
        · exact Or.inl hq
    split
    · rename_i hgrow
      -- the array grows only when there are fewer buckets than nodes
      have hlt : (um₁.bucketCount * 2).toNat < 2 ^ 61 := by
        have hle := hpush.length_le
        have hsize : um₁.size.toNat = cs₁.flatten.length := hpush.size
        have hmul : um₁.bucketCount * kMaxLoadFactor = um₁.bucketCount := BitVec.mul_one _
        rw [hmul, BitVec.lt_def, hsize] at hgrow
        have h2 : (2 : BitVec 64).toNat = 2 := rfl
        rw [BitVec.toNat_mul, h2]
        omega
      simp only [wp_bind]
      refine wp_mono (wp_rehash A hum₁ hpush.toLinked) ?_ (Exhausted.outOfMemory hlt)
      rintro _ u ⟨um', cs', hum', h', hperm', htouch'⟩
      obtain ⟨hd', l', hhd', hl', -⟩ := h'.bucket value.1
      simp only [wp_getMap hum', wp_bucketIndex h'.bucketCount_ne, wp_readBucket hhd']
      refine (h'.wp_search hhd').imp ?_
      rintro r v ⟨rfl, hfound⟩
      have hall := hperm'.trans hperm
      cases hfound with
      | absent hnone =>
        exact (wp_pure _).mpr
          ⟨um', cs', hum', h', htouch.trans htouch', .new p habsent hall, rfl⟩
      | present x hx hkey =>
        obtain rfl : x = (p, value) := by
          rcases List.mem_cons.mp (hall.mem_iff.mp hx) with hx | hx
          · exact hx
          · rw [habsent x hx] at hkey
            cases hkey
        exact (wp_pure _).mpr
          ⟨um', cs', hum', h', htouch.trans htouch', .new p habsent hall, rfl⟩
    · exact (wp_pure _).mpr ⟨um₁, cs₁, hum₁, hpush, htouch, .new p habsent hperm, rfl⟩

/-! ## Erase -/

/-- What `erase` returns, and what it makes of the chains. -/
inductive Erased (T : KeyTraits K) (key : K) (cs cs' : Chains K V) : ℕ → Prop where
  | absent : (∀ x ∈ cs.flatten, T.keyEqual x.2.1 key = false) → cs' = cs → Erased T key cs cs' 0
  | removed (x : NodePtr × K × V) : T.keyEqual x.2.1 key = true →
      cs.flatten.Perm (x :: cs'.flatten) → Erased T key cs cs' 1

theorem Holds.unlink (h : Holds T s.nodes um cs) {i : ℕ} {pre post : List (NodePtr × K × V)}
    {x : NodePtr × K × V} {mem' : NodePtr → Option (Node K V)} {hd : Option NodePtr}
    (hc : cs[i]? = some (pre ++ x :: post)) (hchain : Chain mem' hd (pre ++ post))
    (hmem : ∀ y ∈ cs.flatten, y ∉ pre ++ x :: post → mem' y.1 = s.nodes y.1) :
    Holds T mem' { um with buckets := um.buckets.set i hd, size := um.size - 1 }
        (cs.set i (pre ++ post)) ∧ cs.flatten.Perm (x :: (cs.set i (pre ++ post)).flatten) := by
  obtain ⟨htable, hperm⟩ := h.table.unlink hc hchain hmem
  refine ⟨⟨⟨htable, ?_, ?_⟩, ?_, h.pos, h.bound⟩, hperm⟩
  · have hkeys := (T.equiv.distinct_perm (hperm.map Prod.snd)).mp h.keys
    exact (List.pairwise_cons.mp hkeys).2
  · have hle := h.length_le
    have hsize := h.size
    rw [hperm.length_eq, List.length_cons] at hle hsize
    have h1 : (1 : BitVec 64).toNat = 1 := rfl
    rw [BitVec.toNat_sub, hsize, h1]
    omega
  · rw [List.length_set]
    exact h.count

/-- Whichever link was written: the chain of the bucket is the old one without `x`. -/
theorem Holds.erased (h : Holds T s.nodes um cs) {key : K} {i : ℕ}
    {pre post : List (NodePtr × K × V)} {x : NodePtr × K × V} {hd : Option NodePtr} {t : Store K V}
    (hc : cs[i]? = some (pre ++ x :: post)) (hkey : T.keyEqual x.2.1 key = true)
    (hchain : Chain t.nodes hd (pre ++ post))
    (hframe : ∀ p, p ∉ (pre ++ x :: post).map Prod.fst → t.nodes p = s.nodes p)
    (hmaps : t.maps = Function.update s.maps m
      (some { um with buckets := um.buckets.set i hd, size := um.size - 1 })) :
    ∃ um' cs', t.maps m = some um' ∧ Holds T t.nodes um' cs' ∧
      Touches m (ptrs cs) s t (ptrs cs') ∧ Erased T key cs cs' 1 := by
  have hsub : ∀ z ∈ pre ++ x :: post, z ∈ cs.flatten := fun z hz =>
    List.mem_flatten.mpr ⟨_, List.mem_of_getElem? hc, hz⟩
  have hother : ∀ y ∈ cs.flatten, y ∉ pre ++ x :: post → t.nodes y.1 = s.nodes y.1 := by
    intro y hy hyc
    apply hframe
    intro hp
    obtain ⟨z, hz, hzy⟩ := List.mem_map.mp hp
    exact hyc (List.inj_on_of_nodup_map h.table.apart (hsub z hz) hy hzy ▸ hz)
  obtain ⟨hholds, hperm⟩ := h.unlink hc hchain hother
  refine ⟨_, _, by rw [hmaps, Function.update_self], hholds, ⟨?_, ?_, ?_⟩,
    .removed x hkey hperm⟩
  · intro m' hm'
    rw [hmaps, Function.update_of_ne hm']
  · intro p hp _
    apply hframe
    intro hpc
    obtain ⟨z, hz, rfl⟩ := List.mem_map.mp hpc
    exact hp (List.mem_map_of_mem (hsub z hz))
  · intro p hp
    exact Or.inl ((hperm.map Prod.fst).mem_iff.mpr (List.mem_cons_of_mem _ hp))

theorem wp_eraseChain {key : K} {first prev hd : Option NodePtr}
    {pre rest : List (NodePtr × K × V)} {fuel : ℕ} (hum : s.maps m = some um)
    (h : Holds T s.nodes um cs) (hfirst : um.buckets[um.bucketIndex T key]? = some first)
    (hc : cs[um.bucketIndex T key]? = some (pre ++ rest)) (hchain : Chain s.nodes first (pre ++ rest))
    (hrest : Chain s.nodes hd rest) (hprev : prev = pre.getLast?.map Prod.fst)
    (hpre : ∀ x ∈ pre, T.keyEqual x.2.1 key = false) (hfuel : rest.length < fuel) :
    wp (eraseChain T m um (um.bucketIndex T key) key fuel prev hd) (fun r t =>
      ∃ um' cs', t.maps m = some um' ∧ Holds T t.nodes um' cs' ∧
        Touches m (ptrs cs) s t (ptrs cs') ∧ Erased T key cs cs' r) E s := by
  induction rest generalizing pre prev hd fuel with
  | nil =>
    obtain ⟨fuel, rfl⟩ := Nat.exists_eq_add_of_lt hfuel
    obtain rfl : hd = none := hrest
    refine (wp_pure _).mpr ⟨um, cs, hum, h, .refl .., .absent ?_ rfl⟩
    intro x hx
    by_contra hkey
    rw [Bool.not_eq_false] at hkey
    rw [List.append_nil] at hc
    rw [hpre x (h.mem_bucket hc hx hkey)] at hkey
    cases hkey
  | cons x post ih =>
    obtain ⟨fuel, rfl⟩ : ∃ n, fuel = n + 1 := Nat.exists_eq_add_one.mpr (by omega)
    obtain ⟨rfl, next, hx, hnext⟩ := hrest
    simp only [eraseChain, wp_bind, wp_readNode hx, wp_ite]
    have hnodup := h.table.nodup_chain hc
    split
    · rename_i hkey
      have hxpre : x.1 ∉ (pre ++ post).map Prod.fst := by
        rw [List.map_append, List.map_cons, List.nodup_middle, List.nodup_cons,
          ← List.map_append] at hnodup
        exact hnodup.1
      rcases List.eq_nil_or_concat pre with rfl | ⟨pre, y, rfl⟩
      · obtain rfl : prev = none := hprev
        rw [wp_bind, wp_deleteNode hx, wp_bind, wp_setMap, wp_pure]
        refine h.erased hc hkey (hnext.update hxpre none) ?_ rfl
        intro p hp
        apply Function.update_of_ne
        rintro rfl
        exact hp (by simp)
      · rw [List.concat_eq_append] at *
        obtain rfl : prev = some y.1 := by simpa using hprev
        obtain ⟨nexty, hy⟩ := hchain.live (x := y) (by simp)
        have hxy : x.1 ≠ y.1 := by
          intro heq
          exact hxpre (by simp [heq])
        rw [wp_bind, wp_readNode hy, wp_bind, wp_writeNode hy, wp_bind,
          wp_deleteNode ((Function.update_of_ne hxy _ _).trans hx), wp_bind, wp_setMap, wp_pure]
        have hwhole : Chain s.nodes first (pre ++ y :: x :: post) := by simpa using hchain
        have hbypass := hwhole.bypass (by simpa using hnodup) hx
        have hrest := hbypass.update (p := x.1) (by simpa using hxpre) none
        rw [List.append_cons] at hrest
        refine h.erased hc hkey hrest ?_ ?_
        · intro p hp
          have hpx : p ≠ x.1 := by
            rintro rfl
            exact hp (by simp)
          have hpy : p ≠ y.1 := by
            rintro rfl
            exact hp (by simp)
          exact (Function.update_of_ne hpx _ _).trans (Function.update_of_ne hpy _ _)
        · obtain ⟨hlt, rfl⟩ := List.getElem?_eq_some_iff.mp hfirst
          rw [List.set_getElem_self hlt]
    · rename_i hkey
      rw [Bool.not_eq_true] at hkey
      rw [List.append_cons] at hc hchain
      refine ih hc hchain hnext ?_ ?_ ?_
      · simp
      · intro y hy
        rcases List.mem_append.mp hy with hy | hy
        · exact hpre y hy
        · obtain rfl : y = x := by simpa using hy
          exact hkey
      · simpa using hfuel

theorem wp_erase {key : K} (hum : s.maps m = some um)
    (h : Holds T s.nodes um cs) :
    wp (erase T m key) (fun r t => ∃ um' cs', t.maps m = some um' ∧ Holds T t.nodes um' cs' ∧
      Touches m (ptrs cs) s t (ptrs cs') ∧ Erased T key cs cs' r) E s := by
  obtain ⟨hd, l, hhd, hl, hchain⟩ := h.bucket key
  simp only [erase, wp_bind, wp_getMap hum, wp_bucketIndex h.bucketCount_ne, wp_readBucket hhd]
  rw [← List.nil_append l] at hl hchain
  apply wp_eraseChain hum h hhd hl hchain hchain rfl
  · intro x hx
    cases hx
  · exact h.length_lt_fuel (List.mem_of_getElem? hl)

/-! ## Find, and the reference of the operator `[]` -/

theorem UMap.end_node (h : Holds T s.nodes um cs) : um.end.node = none := by
  rw [UMap.end, UMap.advanceToNextBucket, ← h.count, List.drop_length]
  rfl

theorem wp_find {key : K} (hum : s.maps m = some um)
    (h : Holds T s.nodes um cs) :
    wp (find T m key) (fun it t => t = s ∧ Found T cs key it.node ∧
      (it.node ≠ none → it.bucketIdx = um.bucketIndex T key)) E s := by
  obtain ⟨hd, l, hhd, hl, -⟩ := h.bucket key
  simp only [find, wp_bind, wp_getMap hum, wp_bucketIndex h.bucketCount_ne, wp_readBucket hhd]
  refine (h.wp_search hhd).imp ?_
  rintro r t ⟨rfl, hfound⟩
  cases r with
  | none => simpa [UMap.end_node h] using hfound
  | some p => simpa using hfound

theorem wp_contains {key : K} (hum : s.maps m = some um)
    (h : Holds T s.nodes um cs) :
    wp (contains T m key) (fun b t => t = s ∧ ∃ r, Found T cs key r ∧ b = r.isSome) E s := by
  simp only [contains, wp_bind]
  refine (wp_find hum h).imp ?_
  rintro it t ⟨rfl, hfound, -⟩
  simp only [wp_getMap hum, UMap.end_node h, wp_pure]
  refine ⟨trivial, it.node, hfound, ?_⟩
  cases it.node <;> rfl

theorem wp_count {key : K} (hum : s.maps m = some um)
    (h : Holds T s.nodes um cs) :
    wp (count T m key) (fun n t => t = s ∧ ∃ r, Found T cs key r ∧ n = if r.isSome then 1 else 0)
      E s := by
  simp only [count, wp_bind]
  refine (wp_find hum h).imp ?_
  rintro it t ⟨rfl, hfound, -⟩
  simp only [wp_getMap hum, UMap.end_node h, wp_pure]
  refine ⟨trivial, it.node, hfound, ?_⟩
  cases it.node <;> rfl

theorem wp_index [Inhabited V] (A : Allocator) {key : K} (hum : s.maps m = some um)
    (h : Holds T s.nodes um cs) :
    wp (index A T m key) (fun p t => ∃ um' cs' b, t.maps m = some um' ∧ Holds T t.nodes um' cs' ∧
      Touches m (ptrs cs) s t (ptrs cs') ∧ Inserted T (key, default) cs cs' (some p) b)
      OutOfMemory s := by
  simp only [index, wp_bind]
  refine (wp_find hum h).imp ?_
  rintro ⟨i, r⟩ t ⟨rfl, hfound, -⟩
  simp only [wp_getMap hum, UMap.end_node h, wp_ite, wp_bind]
  cases hfound with
  | absent habsent =>
    rw [if_neg (by simp)]
    refine (wp_insert A hum h).imp ?_
    rintro ⟨⟨j, r⟩, b⟩ u ⟨um', cs', hum', h', htouch, hins, -⟩
    dsimp only at hins
    cases hins with
    | present x hx hkey hc' =>
      exact (wp_pure _).mpr ⟨um', cs', _, hum', h', htouch, .present x hx hkey hc'⟩
    | new p habs hperm =>
      exact (wp_pure _).mpr ⟨um', cs', _, hum', h', htouch, .new p habs hperm⟩
  | present x hx hkey =>
    rw [if_pos (by simp)]
    exact (wp_pure _).mpr ⟨um, cs, _, hum, h, .refl .., .present x hx hkey rfl⟩

theorem Holds.write (h : Holds T s.nodes um cs) {x : NodePtr × K × V} {next : Option NodePtr}
    (hx : x ∈ cs.flatten) (hmem : s.nodes x.1 = some ⟨x.2, next⟩) (v : V) :
    ∃ cs' rest, Holds T (Function.update s.nodes x.1 (some ⟨(x.2.1, v), next⟩)) um cs' ∧
      cs.flatten.Perm (x :: rest) ∧ cs'.flatten.Perm ((x.1, x.2.1, v) :: rest) := by
  obtain ⟨cs', rest, htable, hold, hnew⟩ := h.table.write (d := (x.2.1, v)) hx hmem rfl
  refine ⟨cs', rest, ⟨⟨htable, ?_, ?_⟩, h.count, h.pos, h.bound⟩, hold, hnew⟩
  · have hkeys := (T.equiv.distinct_perm (hold.map Prod.snd)).mp h.keys
    rw [entries, T.equiv.distinct_perm (hnew.map Prod.snd)]
    exact List.pairwise_cons.mpr (List.pairwise_cons.mp hkeys)
  · rw [h.size, hold.length_eq, hnew.length_eq]
    rfl

end NaiLongKernel.Container
