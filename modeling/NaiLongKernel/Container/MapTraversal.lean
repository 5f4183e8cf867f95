import NaiLongKernel.Container.MapOperations

/-!
# Walks over a whole map: copies and iteration

A copy inserts the pairs of the other map one after the other, into a table of its own. An
iterator passes the chains in the order of the buckets.
-/
namespace NaiLongKernel.Container

open Foundation

variable {K V : Type} {T : KeyTraits K} {m : ℕ} {um : UMap} {cs : Chains K V} {s : Store K V}
  {E : MapFault → Store K V → Prop}

/-! ## Copies -/

theorem wp_insertChain (A : Allocator) {hd : Option NodePtr} {l : List (NodePtr × K × V)} {fuel : ℕ}
    (hum : s.maps m = some um) (h : Holds T s.nodes um cs) (hl : Chain s.nodes hd l)
    (hapart : ∀ x ∈ l, x.1 ∉ ptrs cs)
    (hkeys : DistinctKeys T.keyEqual (l.map Prod.snd ++ entries cs)) (hfuel : l.length < fuel) :
    wp (insertChain A T m fuel hd) (fun _ t => ∃ um' cs', t.maps m = some um' ∧
      Holds T t.nodes um' cs' ∧ Touches m (ptrs cs) s t (ptrs cs') ∧
      (entries cs').Perm (l.map Prod.snd ++ entries cs)) OutOfMemory s := by
  induction l generalizing hd fuel s um cs with
  | nil =>
    obtain ⟨fuel, rfl⟩ := Nat.exists_eq_add_of_lt hfuel
    obtain rfl : hd = none := hl
    exact (wp_pure _).mpr ⟨um, cs, hum, h, .refl .., List.Perm.refl _⟩
  | cons x l ih =>
    obtain ⟨fuel, rfl⟩ : ∃ n, fuel = n + 1 := Nat.exists_eq_add_one.mpr (by omega)
    obtain ⟨rfl, next, hx, hrest⟩ := hl
    simp only [insertChain, wp_bind, wp_readNode hx]
    refine (wp_insert A hum h).imp ?_
    rintro ⟨⟨i, r⟩, b⟩ t ⟨um', cs', hum', h', htouch, hins, -⟩
    obtain ⟨hnew, hkeys'⟩ := List.pairwise_cons.mp hkeys
    have habsent : ∀ y ∈ cs.flatten, T.keyEqual y.2.1 x.2.1 = false := by
      intro y hy
      rw [T.equiv.comm]
      exact hnew y.2 (List.mem_append_right _ (List.mem_map_of_mem hy))
    -- the chain that is copied is where it was
    have hx' : t.nodes x.1 = some ⟨x.2, next⟩ := by
      rw [htouch.nodes x.1 (hapart x List.mem_cons_self) (by simp [hx]), hx]
    have hlive : ∀ y ∈ l, s.nodes y.1 ≠ none := by
      intro y hy
      obtain ⟨_, hy⟩ := hrest.live hy
      simp [hy]
    have hrest' : Chain t.nodes next l := hrest.frame fun y hy =>
      htouch.nodes y.1 (hapart y (List.mem_cons_of_mem _ hy)) (hlive y hy)
    have hperm : (entries cs').Perm (x.2 :: entries cs) := by
      dsimp only at hins
      cases hins with
      | present y hy hkey _ =>
        rw [habsent y hy] at hkey
        cases hkey
      | new p _ hperm => exact hperm.map Prod.snd
    have hmiddle : (l.map Prod.snd ++ entries cs').Perm (x.2 :: (l.map Prod.snd ++ entries cs)) :=
      (hperm.append_left _).trans List.perm_middle
    rw [wp_readNode hx']
    refine (ih hum' h' hrest' ?_ ?_ (by simpa using hfuel)).imp ?_
    · intro y hy
      exact htouch.apart (hlive y hy) (hapart y (List.mem_cons_of_mem _ hy))
    · exact (T.equiv.distinct_perm hmiddle).mpr hkeys
    · rintro _ u ⟨um'', cs'', hum'', h'', htouch', hperm'⟩
      exact ⟨um'', cs'', hum'', h'', htouch.trans htouch', hperm'.trans hmiddle⟩

theorem wp_insertChains (A : Allocator) {heads : List (Option NodePtr)} {d : Chains K V} {fuel : ℕ}
    (hum : s.maps m = some um) (h : Holds T s.nodes um cs)
    (hd : List.Forall₂ (Chain s.nodes) heads d) (hapart : ∀ x ∈ d.flatten, x.1 ∉ ptrs cs)
    (hkeys : DistinctKeys T.keyEqual (entries d ++ entries cs)) (hfuel : ∀ l ∈ d, l.length < fuel) :
    wp (heads.forM fun hd => insertChain A T m fuel hd) (fun _ t => ∃ um' cs', t.maps m = some um' ∧
      Holds T t.nodes um' cs' ∧ Touches m (ptrs cs) s t (ptrs cs') ∧
      (entries cs').Perm (entries d ++ entries cs)) OutOfMemory s := by
  rw [List.forM_eq_forM]
  induction d generalizing heads s um cs with
  | nil =>
    cases hd
    exact (wp_pure _).mpr ⟨um, cs, hum, h, .refl .., List.Perm.refl _⟩
  | cons l d ih =>
    cases hd with
    | @cons hd _ heads _ hl hrest =>
      have hentries : entries (l :: d) = l.map Prod.snd ++ entries d := by simp [entries]
      have hswap : (entries (l :: d) ++ entries cs).Perm
          (entries d ++ (l.map Prod.snd ++ entries cs)) := by
        rw [hentries, List.append_assoc]
        exact List.perm_append_comm_assoc ..
      simp only [List.flatten_cons, List.mem_append] at hapart
      have hkeys' := (T.equiv.distinct_perm hswap).mp hkeys
      rw [List.forM_cons, wp_bind]
      refine (wp_insertChain A hum h hl (fun x hx => hapart x (Or.inl hx))
        (List.pairwise_append.mp hkeys').2.1 (hfuel l List.mem_cons_self)).imp ?_
      rintro _ t ⟨um', cs', hum', h', htouch, hperm⟩
      have hmove : (entries d ++ entries cs').Perm (entries (l :: d) ++ entries cs) :=
        (hperm.append_left _).trans hswap.symm
      refine (ih hum' h' (htouch.chains hrest fun x hx => hapart x (Or.inr hx)) ?_
        ((T.equiv.distinct_perm hmove).mpr hkeys) fun l' hl' =>
          hfuel l' (List.mem_cons_of_mem _ hl')).imp ?_
      · intro x hx
        obtain ⟨_, hlive⟩ := Chain.live_all hrest hx
        exact htouch.apart (by simp [hlive]) (hapart x (Or.inr hx))
      · rintro _ u ⟨um'', cs'', hum'', h'', htouch', hperm'⟩
        exact ⟨um'', cs'', hum'', h'', htouch.trans htouch', hperm'.trans hmove⟩

theorem wp_insertAll (A : Allocator) {other : UMap} {d : Chains K V}
    (hum : s.maps m = some .unset) (hd : Linked T s.nodes other d)
    (hbound : other.bucketCount.toNat < 2 ^ 61) :
    wp (insertAll A T m other) (fun _ t => ∃ um' cs', t.maps m = some um' ∧
      Holds T t.nodes um' cs' ∧ Touches m [] s t (ptrs cs') ∧
      (entries cs').Perm (entries d)) OutOfMemory s := by
  rw [insertAll, wp_bind]
  refine wp_mono (wp_rehash A hum (Linked.unset T s.nodes)) ?_ (Exhausted.outOfMemory hbound)
  rintro _ t ⟨um', cs', hum', h', hperm, htouch⟩
  have hempty : cs'.flatten = [] := List.perm_nil.mp hperm
  have hentries : entries cs' = [] := by rw [entries, hempty, List.map_nil]
  have hptrs : ptrs cs' = [] := by rw [ptrs, hempty, List.map_nil]
  refine (wp_insertChains A hum' h' (htouch.chains hd.table.chain fun _ _ hp => by cases hp)
    ?_ ?_ fun l hl => hd.length_lt_fuel hl).imp ?_
  · intro x _
    rw [hptrs]
    exact List.not_mem_nil
  · rw [hentries, List.append_nil]
    exact hd.keys
  · rintro _ u ⟨um'', cs'', hum'', h'', htouch', hperm'⟩
    rw [hentries, List.append_nil] at hperm'
    exact ⟨um'', cs'', hum'', h'', htouch.trans htouch', hperm'⟩

/-! ## Iteration -/

/-- The nodes from an iterator on: the rest of its chain, then the later buckets. -/
inductive Ahead (mem : NodePtr → Option (Node K V)) (um : UMap) :
    Iter → List (NodePtr × K × V) → Prop where
  | done (i : ℕ) : Ahead mem um ⟨i, none⟩ []
  | here (i : ℕ) (x : NodePtr × K × V) (rest : List (NodePtr × K × V)) (later : Chains K V) :
      Chain mem (some x.1) (x :: rest) → List.Forall₂ (Chain mem) (um.buckets.drop (i + 1)) later →
      Ahead mem um ⟨i, some x.1⟩ (x :: rest ++ later.flatten)

theorem ahead_advance {mem : NodePtr → Option (Node K V)} {i : ℕ} {later : Chains K V}
    (h : List.Forall₂ (Chain mem) (um.buckets.drop i) later) :
    Ahead mem um (um.advanceToNextBucket i) later.flatten := by
  rw [UMap.advanceToNextBucket]
  generalize hheads : um.buckets.drop i = heads at h
  induction h generalizing i with
  | nil => exact .done i
  | @cons hd l heads later hl hrest ih =>
    have hdrop : um.buckets.drop (i + 1) = heads := by
      rw [← List.drop_drop, hheads]
      rfl
    cases l with
    | nil =>
      obtain rfl : hd = none := hl
      exact ih hdrop
    | cons x rest =>
      obtain rfl : hd = some x.1 := hl.1
      exact .here i x rest later hl (hdrop ▸ hrest)

theorem wp_next {it : Iter} {x : NodePtr × K × V}
    {todo : List (NodePtr × K × V)} (h : Ahead s.nodes um it (x :: todo)) :
    wp (it.next um) (fun it' t => t = s ∧ Ahead s.nodes um it' todo) E s := by
  cases h with
  | here i x rest later hx hlater =>
    obtain ⟨-, next, hmem, hrest⟩ := hx
    simp only [Iter.next, wp_bind, wp_readNode hmem]
    cases rest with
    | nil =>
      obtain rfl : next = none := hrest
      exact (wp_pure _).mpr ⟨rfl, ahead_advance hlater⟩
    | cons y rest =>
      have hy : Chain s.nodes (some y.1) (y :: rest) := hrest.1 ▸ hrest
      obtain rfl : next = some y.1 := hrest.1
      exact (wp_pure _).mpr ⟨rfl, .here i y rest later hy hlater⟩

theorem wp_visitFrom {it : Iter} {fuel : ℕ}
    {todo : List (NodePtr × K × V)} (h : Ahead s.nodes um it todo) (hfuel : todo.length < fuel) :
    wp (visitFrom um fuel it) (fun l t => t = s ∧ l = todo.map Prod.snd) E s := by
  induction todo generalizing it fuel with
  | nil =>
    obtain ⟨fuel, rfl⟩ := Nat.exists_eq_add_of_lt hfuel
    cases h
    simp [visitFrom]
  | cons x todo ih =>
    obtain ⟨fuel, rfl⟩ : ∃ n, fuel = n + 1 := Nat.exists_eq_add_one.mpr (by omega)
    have hnext := wp_next (E := E) h
    cases h with
    | here i x rest later hx hlater =>
      obtain ⟨-, next, hmem, -⟩ := hx
      simp only [visitFrom, wp_bind, wp_readNode hmem]
      refine hnext.imp ?_
      rintro it' t ⟨rfl, hahead⟩
      refine (ih hahead (by simpa using hfuel)).imp ?_
      rintro l u ⟨rfl, rfl⟩
      exact (wp_pure _).mpr ⟨rfl, rfl⟩

/-- A loop from `begin()` to `end()` sees the chains in the order of the buckets. -/
theorem wp_visit (hum : s.maps m = some um)
    (h : Linked T s.nodes um cs) :
    wp (visit m) (fun l t => t = s ∧ l = entries cs) E s := by
  simp only [visit, wp_bind, wp_getMap hum]
  apply wp_visitFrom (ahead_advance (i := 0) h.table.chain)
  rw [UMap.fuel, h.size]
  exact Nat.lt_succ_self _

end NaiLongKernel.Container
