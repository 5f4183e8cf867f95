import NaiLongKernel.Container.MapRefinement

/-!
# Moves of hash maps

The move constructor and the move assignment take the bucket array of the other map and
leave it without one, so a later `bucket_index` on that map divides by zero. A map that was
moved from gets an array again when it is assigned, rehashed or enlarged.
-/
namespace NaiLongKernel.Container

open Foundation

variable {K V : Type}

/-! ## The operations -/

def moveConstruct (m other : ℕ) : MapM K V Unit := do
  let um ← getMap other
  setMap m (some um)
  setMap other (some .unset)

def moveAssign (m other : ℕ) : MapM K V Unit := do
  if m ≠ other then
    destroy m
    let um ← getMap other
    setMap m (some um)
    setMap other (some .unset)

def bucket (T : KeyTraits K) (m : ℕ) (key : K) : MapM K V ℕ := do
  let um ← getMap m
  bucketIndex T um key

/-- Whether each object that exists is without a bucket array. -/
abbrev Moved := ℕ → Option Bool

/-- The objects that exist, as empty maps. -/
def Moved.names (a : Moved) : MapNames K V := fun m => (a m).map fun _ _ => none

inductive MapMove (K V : Type) where
  | call (op : MapOp K V)
  | moveConstruct (m other : ℕ)
  | moveAssign (m other : ℕ)
  | bucket (m : ℕ) (key : K)

namespace MapMove

def exec [Inhabited V] (A : Allocator) (T : KeyTraits K) : MapMove K V → MapM K V (Answer K V)
  | call op => Container.exec A T op
  | moveConstruct m other => do Container.moveConstruct m other; return .done
  | moveAssign m other => do Container.moveAssign m other; return .done
  | bucket m key => do return .number (← Container.bucket T m key)

def Legal (a : Moved) : MapMove K V → Prop
  | call op => op.Legal a.names
  | moveConstruct m other => a m = none ∧ (a other).isSome
  | moveAssign m other => (a m).isSome ∧ (a other).isSome
  | bucket m _ => (a m).isSome

instance (a : Moved) : DecidablePred (Legal a : MapMove K V → Prop)
  | call op => inferInstanceAs (Decidable (op.Legal a.names))
  | moveConstruct m other => inferInstanceAs (Decidable (a m = none ∧ (a other).isSome))
  | moveAssign m other => inferInstanceAs (Decidable ((a m).isSome ∧ (a other).isSome))
  | bucket m _ => inferInstanceAs (Decidable ((a m).isSome = true))

theorem isSome_names (a : Moved) (m : ℕ) : ((a.names : MapNames K V) m).isSome = (a m).isSome :=
  Option.isSome_map

/-- Which objects are without an array after the operation. -/
def apply (a : Moved) : MapMove K V → Moved
  | call (.construct m _) | call (.copyConstruct m _) | call (.rehash m _) =>
    Function.update a m (some false)
  | call (.copyAssign m other) => if m = other then a else Function.update a m (some false)
  -- for the largest number, the number of buckets that is required is zero
  | call (.reserve m n) => if n + 1 = 0 then a else Function.update a m (some false)
  | call (.destruct m) => Function.update a m none
  | moveConstruct m other => Function.update (Function.update a m (a other)) other (some true)
  | moveAssign m other =>
    if m = other then a else Function.update (Function.update a m (a other)) other (some true)
  | _ => a

/-- The object whose bucket index is computed for a key that is given. -/
def indexed : MapMove K V → Option ℕ
  | call (.insert m _ _) | call (.emplace m _ _) | call (.index m _ _) | call (.erase m _)
  | call (.find m _) | call (.contains m _) | call (.count m _) | bucket m _ => some m
  | _ => none

theorem Legal.live {a : Moved} {op : MapMove K V} {m : ℕ} (h : op.Legal a)
    (hop : op.indexed = some m) : a m = some false ∨ a m = some true := by
  have hsome : (a m).isSome = true := by
    cases op with
    | call op =>
      rw [← isSome_names (K := K) (V := V)]
      cases op with
      | insert m' key value | emplace m' key value | index m' key value | erase m' key
      | find m' key | contains m' key | count m' key =>
        cases hop
        exact h
      | _ => cases hop
    | bucket m' key =>
      cases hop
      exact h
    | _ => cases hop
  obtain ⟨b, hb⟩ := Option.isSome_iff_exists.mp hsome
  cases b with
  | false => exact Or.inl hb
  | true => exact Or.inr hb

/-- The index that the operation begins with is computed for a map with buckets, and no
index or bucket array after it fails either. -/
def Sound [Inhabited V] (A : Allocator) (T : KeyTraits K) (s : Store K V) (op : MapMove K V) :
    Prop :=
  (∀ m, op.indexed = some m →
    ∃ um, s.maps m = some um ∧ 0 < um.bucketCount.toNat ∧ um.buckets ≠ []) ∧
  stoppedBy (op.exec A T s) ≠ some .divideByZero ∧ stoppedBy (op.exec A T s) ≠ some .nullBuckets

end MapMove

/-- One operation on the objects, which also notes the moves. -/
def moveStep [Inhabited V] (A : Allocator) (T : KeyTraits K) (x : Store K V × Moved)
    (op : MapMove K V) : Option (Store K V × Moved) :=
  match op.exec A T x.1 with
  | .ok _ t => some (t, op.apply x.2)
  | .error _ _ => none

/-- The states of programs that construct an object once and use it while it exists. -/
abbrev MoveReached [Inhabited V] (A : Allocator) (T : KeyTraits K) : Store K V × Moved → Prop :=
  Reached (moveStep A T) (fun x op => op.Legal x.2) (Store.empty, fun _ => none)

/-! ## The invariant -/

/-- A fault that has nothing to do with a missing array. -/
def Unrelated (e : MapFault) (_ : Store K V) : Prop := e ≠ .divideByZero ∧ e ≠ .nullBuckets

theorem OutOfMemory.unrelated (e : MapFault) (s : Store K V) (h : OutOfMemory e s) :
    Unrelated e s := by
  cases h
  exact ⟨by decide, by decide⟩

theorem Exhausted.unrelated {n : BitVec 64} (e : MapFault) (s : Store K V) (h : Exhausted n e s) :
    Unrelated e s := by
  rcases h with rfl | ⟨-, rfl⟩
  · exact ⟨by decide, by decide⟩
  · exact ⟨by decide, by decide⟩

/-- An object that was moved from has no buckets, and any other one holds a map. -/
def Shape (T : KeyTraits K) (mem : NodePtr → Option (Node K V)) (um : Option UMap)
    (moved : Option Bool) (cs : Chains K V) : Prop :=
  match moved with
  | none => um = none ∧ cs = []
  | some true => um = some .unset ∧ cs = []
  | some false => ∃ u, um = some u ∧ Holds T mem u cs

theorem Shape.live {T : KeyTraits K} {mem : NodePtr → Option (Node K V)} {um : Option UMap}
    {moved : Option Bool} {cs : Chains K V} (h : Shape T mem um moved cs) :
    ∀ p ∈ ptrs cs, mem p ≠ none := by
  rcases moved with _ | _ | _
  · rw [h.2]
    exact fun _ => nofun
  · obtain ⟨u, -, hu⟩ := h
    exact hu.live
  · rw [h.2]
    exact fun _ => nofun

theorem Shape.frame {T : KeyTraits K} {mem mem' : NodePtr → Option (Node K V)} {um : Option UMap}
    {moved : Option Bool} {cs : Chains K V} (h : Shape T mem um moved cs)
    (hmem : ∀ p ∈ ptrs cs, mem' p = mem p) : Shape T mem' um moved cs := by
  rcases moved with _ | _ | _
  · exact h
  · obtain ⟨u, hum, hu⟩ := h
    exact ⟨u, hum, hu.frame hmem⟩
  · exact h

/-- Every object that was not moved from has its buckets. -/
def Kept (T : KeyTraits K) (s : Store K V) (a : Moved) : Prop :=
  ∃ chains, Separate (Shape T) s a chains

namespace Kept

variable {T : KeyTraits K} {s t : Store K V} {a : Moved} {chains : ℕ → Chains K V} {m : ℕ}
  {cs : Chains K V} {um : UMap}

theorem unused (h : Separate (Shape T) s a chains) (hm : a m = none) : chains m = [] := by
  have hslot := h.slot m
  rw [hm] at hslot
  exact hslot.2

theorem unset (h : Separate (Shape T) s a chains) (hm : a m = some true) :
    s.maps m = some .unset ∧ chains m = [] := by
  have hslot := h.slot m
  rw [hm] at hslot
  exact hslot

theorem built (h : Separate (Shape T) s a chains) (hm : a m = some false) :
    ∃ um, s.maps m = some um ∧ Holds T s.nodes um (chains m) := by
  have hslot := h.slot m
  rw [hm] at hslot
  exact hslot

theorem linked (h : Separate (Shape T) s a chains) (hm : (a m).isSome) :
    ∃ um, s.maps m = some um ∧ Linked T s.nodes um (chains m) ∧
      um.bucketCount.toNat < 2 ^ 61 := by
  obtain ⟨b, hb⟩ := Option.isSome_iff_exists.mp hm
  cases b with
  | false =>
    obtain ⟨um, hum, hc⟩ := built h hb
    exact ⟨um, hum, hc.toLinked, hc.bound⟩
  | true =>
    obtain ⟨hum, hchains⟩ := unset h hb
    rw [hchains]
    exact ⟨.unset, hum, .unset T s.nodes, by decide⟩

theorem renew (h : Separate (Shape T) s a chains) (hum : t.maps m = some um)
    (hc : Holds T t.nodes um cs) (htouch : Touches m (ptrs (chains m)) s t (ptrs cs)) :
    Kept T t (Function.update a m (some false)) :=
  ⟨_, h.update Shape.live Shape.frame htouch ⟨um, hum, hc⟩⟩

theorem vacate (h : Separate (Shape T) s a chains) (moved : Option Bool)
    (hslot : Shape T t.nodes (t.maps m) moved []) (htouch : Touches m (ptrs (chains m)) s t []) :
    Separate (Shape T) t (Function.update a m moved) (Function.update chains m []) :=
  h.update Shape.live Shape.frame htouch hslot

theorem handOver {other : ℕ} (h : Separate (Shape T) s a chains) (hm : m ≠ other)
    (hnone : chains m = []) :
    Kept T { s with
        maps := Function.update (Function.update s.maps m (s.maps other)) other (some .unset) }
      (Function.update (Function.update a m (a other)) other (some true)) := by
  -- the names of the two objects are exchanged, then `other` loses its array
  let swapped (m' : ℕ) : ℕ := if m' = m then other else if m' = other then m else m'
  have hinj : ∀ m₁ m₂, m₁ ≠ m₂ → swapped m₁ ≠ swapped m₂ := by
    intro m₁ m₂ hne
    simp only [swapped]
    split_ifs <;> omega
  refine ⟨fun m' => chains (swapped m'), fun m' => ?_, fun m₁ m₂ hne => h.apart _ _ (hinj _ _ hne)⟩
  by_cases ho : m' = other
  · subst ho
    simp only [swapped, if_neg (Ne.symm hm), if_true, Function.update_self, hnone]
    exact ⟨rfl, rfl⟩
  · by_cases hmm : m' = m
    · subst hmm
      simpa only [swapped, if_true, Function.update_of_ne ho, Function.update_self]
        using h.slot other
    · simpa only [swapped, if_neg hmm, if_neg ho, Function.update_of_ne ho,
        Function.update_of_ne hmm] using h.slot m'

end Kept

theorem wp_bucketIndex_unset {T : KeyTraits K} {s : Store K V} {key : K} {Q : ℕ → Store K V → Prop}
    {E : MapFault → Store K V → Prop} (h : E .divideByZero s) :
    wp (bucketIndex T .unset key) Q E s := by
  have hzero : UMap.unset.bucketCount = 0 := rfl
  rw [bucketIndex, if_pos hzero, wp_bind, wp_throw]
  exact h

section Exec

variable [Inhabited V] (A : Allocator) (T : KeyTraits K) {s : Store K V} {a : Moved}
  {chains : ℕ → Chains K V}

theorem wp_call_built (h : Separate (Shape T) s a chains) {op : MapOp K V} {m : ℕ}
    (hm : (MapMove.call op).indexed = some m) (ha : a m = some false) :
    wp (exec A T op) (fun _ t => Kept T t a) Unrelated s := by
  obtain ⟨um, hum, hc⟩ := Kept.built h ha
  have hsame : Kept T s a := ⟨chains, h⟩
  have hstays : ∀ {t um' cs'}, t.maps m = some um' → Holds T t.nodes um' cs' →
      Touches m (ptrs (chains m)) s t (ptrs cs') → Kept T t a := by
    intro t um' cs' hum' h' htouch
    have hkept := Kept.renew h hum' h' htouch
    rwa [← ha, Function.update_eq_self] at hkept
  cases op with
  | insert m' key value | emplace m' key value =>
    cases hm
    refine wp_mono (hc.wp_insert_answer A hum) ?_ OutOfMemory.unrelated
    rintro _ t ⟨um', cs', hum', h', htouch, -⟩
    exact hstays hum' h' htouch
  | index m' key value =>
    cases hm
    refine wp_mono (hc.wp_index_answer A hum) ?_ OutOfMemory.unrelated
    rintro _ t ⟨um', cs', hum', h', htouch, -⟩
    exact hstays hum' h' htouch
  | erase m' key =>
    cases hm
    simp only [exec, wp_bind, wp_pure]
    refine (wp_erase hum hc).imp ?_
    rintro _ t ⟨um', cs', hum', h', htouch, -⟩
    exact hstays hum' h' htouch
  | find m' key =>
    cases hm
    simp only [exec, wp_bind]
    refine (wp_find hum hc).imp ?_
    rintro ⟨i, r⟩ t ⟨rfl, hfound, -⟩
    cases hfound with
    | absent => exact (wp_pure _).mpr hsame
    | present x hx =>
      obtain ⟨next, hnode⟩ := hc.table.live hx
      simp only [wp_bind, wp_readNode hnode, wp_pure]
      exact hsame
  | contains m' key =>
    cases hm
    simp only [exec, wp_bind, wp_pure]
    exact (wp_contains hum hc).imp fun _ t ht => ht.1 ▸ hsame
  | count m' key =>
    cases hm
    simp only [exec, wp_bind, wp_pure]
    exact (wp_count hum hc).imp fun _ t ht => ht.1 ▸ hsame
  | _ => cases hm

theorem wp_call_other (h : Separate (Shape T) s a chains) {op : MapOp K V}
    (hlegal : op.Legal a.names) (hop : (MapMove.call op).indexed = none) :
    wp (exec A T op) (fun _ t => Kept T t ((MapMove.call op).apply a)) Unrelated s := by
  have hsome : ∀ {m}, ((a.names : MapNames K V) m).isSome → (a m).isSome := by
    intro m hm
    rwa [MapMove.isSome_names] at hm
  cases op with
  | construct m n =>
    have hchains := Kept.unused h (Option.map_eq_none_iff.mp hlegal)
    simp only [exec, construct, wp_bind, wp_setMap, wp_pure]
    refine wp_mono (wp_rehash A (Function.update_self ..) (Linked.unset T s.nodes)) ?_
      Exhausted.unrelated
    rintro _ t ⟨um, cs, hum, hc, -, htouch⟩
    exact Kept.renew h hum hc (hchains ▸ (Touches.unset m s).trans htouch)
  | copyConstruct m other =>
    have hchains := Kept.unused h (Option.map_eq_none_iff.mp hlegal.1)
    obtain ⟨um, hum, hc, hbound⟩ := Kept.linked h (hsome hlegal.2)
    simp only [exec, copyConstruct, wp_bind, wp_getMap hum, wp_setMap, wp_pure]
    refine wp_mono (wp_insertAll A (Function.update_self ..) hc hbound) ?_ OutOfMemory.unrelated
    rintro _ t ⟨um', cs', hum', h', htouch, -⟩
    exact Kept.renew h hum' h' (hchains ▸ (Touches.unset m s).trans htouch)
  | copyAssign m other =>
    obtain ⟨um, hum, hc, -⟩ := Kept.linked h (hsome hlegal.1)
    obtain ⟨um', hum', hc', hbound⟩ := Kept.linked h (hsome hlegal.2)
    simp only [exec, copyAssign, wp_bind, wp_ite, wp_pure, MapMove.apply]
    by_cases hm : m = other
    · rw [if_neg (not_not.mpr hm), if_pos hm]
      exact ⟨chains, h⟩
    · rw [if_pos hm, if_neg hm, wp_getMap hum']
      refine (wp_destroy hum hc).imp ?_
      rintro _ t ⟨hunset, htouch⟩
      have hother := htouch.linked hc' (h.apart other m (Ne.symm hm))
      refine wp_mono (wp_insertAll A hunset hother hbound) ?_ OutOfMemory.unrelated
      rintro _ u ⟨um'', cs'', hum'', h'', htouch', -⟩
      exact Kept.renew h hum'' h'' (htouch.trans htouch')
  | destruct m =>
    obtain ⟨um, hum, hc, -⟩ := Kept.linked h (hsome hlegal)
    simp only [exec, destruct, wp_bind, wp_setMap, wp_pure]
    refine (wp_destroy hum hc).imp ?_
    rintro _ t ⟨-, htouch⟩
    refine ⟨_, Kept.vacate h none ⟨Function.update_self .., rfl⟩ ⟨?_, htouch.nodes, htouch.fresh⟩⟩
    intro m' hm'
    exact (Function.update_of_ne hm' _ _).trans (htouch.maps m' hm')
  | clear m =>
    obtain ⟨um, hum, hc, -⟩ := Kept.linked h (hsome hlegal)
    simp only [exec, wp_bind, wp_pure]
    refine (wp_clear hum hc).imp ?_
    rintro _ t ⟨hum', htouch⟩
    obtain ⟨b, hb⟩ := Option.isSome_iff_exists.mp (hsome hlegal)
    have happly : (MapMove.call (.clear m : MapOp K V)).apply a = Function.update a m (some b) := by
      rw [← hb, Function.update_eq_self]
      rfl
    rw [happly]
    cases b with
    | false =>
      obtain ⟨_, hum₁, hb⟩ := Kept.built h hb
      cases hum.symm.trans hum₁
      refine Kept.renew h hum' (hb.cleared t) ?_
      rwa [ptrs_replicate_nil]
    | true =>
      cases hum.symm.trans (Kept.unset h hb).1
      exact ⟨_, Kept.vacate h (some true) ⟨hum', rfl⟩ htouch⟩
  | rehash m n =>
    obtain ⟨um, hum, hc, -⟩ := Kept.linked h (hsome hlegal)
    simp only [exec, wp_bind, wp_pure]
    refine wp_mono (wp_rehash A hum hc) ?_ Exhausted.unrelated
    rintro _ t ⟨um', cs', hum', h', -, htouch⟩
    exact Kept.renew h hum' h' htouch
  | reserve m n =>
    obtain ⟨um, hum, hc, -⟩ := Kept.linked h (hsome hlegal)
    have hrequired : n / kMaxLoadFactor + 1 = n + 1 := congrArg (· + 1) BitVec.udiv_one
    simp only [exec, reserve, wp_bind, wp_getMap hum, wp_pure, hrequired, wp_ite, MapMove.apply]
    split
    · rename_i hlt
      have hpos : n + 1 ≠ 0 := by bv_omega
      rw [if_neg hpos]
      refine wp_mono (wp_rehash A hum hc) ?_ Exhausted.unrelated
      rintro _ t ⟨um', cs', hum', h', -, htouch⟩
      exact Kept.renew h hum' h' htouch
    · rename_i hle
      split
      · exact ⟨chains, h⟩
      · rename_i hpos
        -- a map without buckets is smaller than any requirement but zero
        obtain ⟨b, hb⟩ := Option.isSome_iff_exists.mp (hsome hlegal)
        cases b with
        | false =>
          rw [← hb, Function.update_eq_self]
          exact ⟨chains, h⟩
        | true =>
          cases hum.symm.trans (Kept.unset h hb).1
          have hzero : UMap.unset.bucketCount = 0 := rfl
          rw [hzero] at hle
          exact absurd (by bv_omega) hle
  | size m =>
    obtain ⟨um, hum, -⟩ := Kept.linked h (hsome hlegal)
    simp only [exec, wp_bind, wp_getMap hum, wp_pure]
    exact ⟨chains, h⟩
  | visit m =>
    obtain ⟨um, hum, hc, -⟩ := Kept.linked h (hsome hlegal)
    simp only [exec, wp_bind, wp_pure]
    exact (wp_visit hum hc).imp fun _ t ht => ht.1 ▸ ⟨chains, h⟩
  | _ => cases hop

theorem wp_move_built (h : Separate (Shape T) s a chains) (op : MapMove K V) (hlegal : op.Legal a)
    (hbuilt : ∀ m, op.indexed = some m → a m = some false) :
    wp (op.exec A T) (fun _ t => Kept T t (op.apply a)) Unrelated s := by
  cases op with
  | call op =>
    cases hop : (MapMove.call op).indexed with
    | none => exact wp_call_other A T h hlegal hop
    | some m =>
      have happly : (MapMove.call op).apply a = a := by
        cases op <;> first | rfl | cases hop
      rw [happly]
      exact wp_call_built A T h hop (hbuilt m hop)
  | moveConstruct m other =>
    obtain ⟨hnone, hsome⟩ := hlegal
    obtain ⟨um, hum, -⟩ := Kept.linked h hsome
    have hm : m ≠ other := by
      rintro rfl
      rw [hnone] at hsome
      cases hsome
    have hkept := Kept.handOver h hm (Kept.unused h hnone)
    rw [hum] at hkept
    simp only [MapMove.exec, moveConstruct, wp_bind, wp_getMap hum, wp_setMap, wp_pure]
    exact hkept
  | moveAssign m other =>
    obtain ⟨um, hum, hc, -⟩ := Kept.linked h hlegal.1
    obtain ⟨um', hum', -⟩ := Kept.linked h hlegal.2
    simp only [MapMove.exec, moveAssign, wp_bind, wp_ite, wp_pure, MapMove.apply]
    by_cases hm : m = other
    · rw [if_neg (not_not.mpr hm), if_pos hm]
      exact ⟨chains, h⟩
    · rw [if_pos hm, if_neg hm]
      refine (wp_destroy hum hc).imp ?_
      rintro _ t ⟨hunset, htouch⟩
      have hum₁ : t.maps other = some um' := (htouch.maps other (Ne.symm hm)).trans hum'
      have hkept := Kept.handOver (Kept.vacate h (some true) ⟨hunset, rfl⟩ htouch) hm
        (Function.update_self ..)
      rw [hum₁, Function.update_idem, Function.update_of_ne (Ne.symm hm)] at hkept
      simp only [wp_getMap hum₁, wp_setMap]
      exact hkept
  | bucket m key =>
    obtain ⟨um, hum, hc⟩ := Kept.built h (hbuilt m rfl)
    simp only [MapMove.exec, bucket, wp_bind, wp_getMap hum, wp_bucketIndex hc.bucketCount_ne,
      wp_pure]
    exact ⟨chains, h⟩

theorem wp_move_unset {m : ℕ} (hum : s.maps m = some .unset) (op : MapMove K V)
    (hop : op.indexed = some m) :
    wp (op.exec A T) (fun _ _ => False) (fun e _ => e = .divideByZero) s := by
  cases op with
  | call op =>
    cases op with
    | insert m' key value | emplace m' key value =>
      cases hop
      simp only [MapMove.exec, exec, emplace, insert, wp_bind, wp_getMap hum]
      exact wp_bucketIndex_unset rfl
    | index m' key value =>
      cases hop
      simp only [MapMove.exec, exec, index, find, wp_bind, wp_getMap hum]
      exact wp_bucketIndex_unset rfl
    | erase m' key =>
      cases hop
      simp only [MapMove.exec, exec, erase, wp_bind, wp_getMap hum]
      exact wp_bucketIndex_unset rfl
    | find m' key =>
      cases hop
      simp only [MapMove.exec, exec, find, wp_bind, wp_getMap hum]
      exact wp_bucketIndex_unset rfl
    | contains m' key =>
      cases hop
      simp only [MapMove.exec, exec, contains, find, wp_bind, wp_getMap hum]
      exact wp_bucketIndex_unset rfl
    | count m' key =>
      cases hop
      simp only [MapMove.exec, exec, count, find, wp_bind, wp_getMap hum]
      exact wp_bucketIndex_unset rfl
    | _ => cases hop
  | bucket m' key =>
    cases hop
    simp only [MapMove.exec, bucket, wp_bind, wp_getMap hum]
    exact wp_bucketIndex_unset rfl
  | moveConstruct | moveAssign => cases hop

/-! ## Runs -/

theorem moveStep_kept {t : Store K V} {b : Moved} {op : MapMove K V} (h : Kept T s a)
    (hlegal : op.Legal a) (hstep : moveStep A T (s, a) op = some (t, b)) : Kept T t b := by
  obtain ⟨chains, h⟩ := h
  rw [moveStep] at hstep
  dsimp only at hstep
  split at hstep
  · rename_i hrun
    cases hstep
    refine (wp_move_built A T h op hlegal fun m hop => ?_).of_ok hrun
    rcases hlegal.live hop with hm | hm
    · exact hm
    · exact ((wp_move_unset A T (Kept.unset h hm).1 op hop).of_ok hrun).elim
  · cases hstep

theorem MoveReached.kept {x : Store K V × Moved} (h : MoveReached A T x) : Kept T x.1 x.2 := by
  have hstart : Kept T (Store.empty : Store K V) fun _ => none :=
    ⟨fun _ => [], fun _ => ⟨rfl, rfl⟩, fun _ _ _ _ => nofun⟩
  exact Reached.invariant (I := fun x : Store K V × Moved => Kept T x.1 x.2) hstart
    (fun _ _ _ hx hlegal hstep => moveStep_kept A T hx hlegal hstep) h

end Exec

/-- In every run an operation computes its bucket indices soundly exactly when the map it
looks a key up in has not been moved from, or has got a new array since. -/
theorem bucket_index_sound_iff [Inhabited V] (A : Allocator) (T : KeyTraits K)
    {x : Store K V × Moved} (h : MoveReached A T x) (op : MapMove K V) (hlegal : op.Legal x.2) :
    op.Sound A T x.1 ↔ ∀ m, op.indexed = some m → x.2 m = some false := by
  obtain ⟨chains, hkept⟩ := MoveReached.kept A T h
  constructor
  · rintro ⟨hindex, -⟩ m hop
    obtain ⟨um, hum, hpos, -⟩ := hindex m hop
    rcases hlegal.live hop with hm | hm
    · exact hm
    · rw [(Kept.unset hkept hm).1] at hum
      cases hum
      exact absurd hpos (lt_irrefl 0)
  · intro hbuilt
    refine ⟨fun m hop => ?_, ?_⟩
    · obtain ⟨um, hum, hc⟩ := Kept.built hkept (hbuilt m hop)
      exact ⟨um, hum, hc.pos, List.ne_nil_of_length_pos (hc.count ▸ hc.pos)⟩
    · have hrun := wp_move_built A T hkept op hlegal hbuilt
      constructor
      · intro hstop
        obtain ⟨t, ht⟩ := exists_of_stoppedBy hstop
        exact (hrun.of_error ht).1 rfl
      · intro hstop
        obtain ⟨t, ht⟩ := exists_of_stoppedBy hstop
        exact (hrun.of_error ht).2 rfl

/-- A map is moved to another and back, and the other one gets a new array. -/
def moveThereAndBack : List (MapMove ℕ ℕ) :=
  [.call (.construct 0 4), .call (.insert 0 1 10), .moveConstruct 1 0, .moveAssign 0 1,
    .call (.reserve 1 3)]

theorem bucket_index_sound_iff_example : ∃ x : Store ℕ ℕ × Moved,
    MoveReached countingAllocator natTraits x ∧
    (MapMove.call (.find 1 5)).Sound countingAllocator natTraits x.1 ∧
    (MapMove.bucket 0 1).Sound countingAllocator natTraits x.1 := by
  have hstart : MoveReached countingAllocator natTraits
      ((Store.empty, fun _ => none) : Store ℕ ℕ × Moved) := .start
  obtain ⟨x, hx, h0, h1⟩ := hstart.exists_replay (fun x op => decide (op.Legal x.2))
    (fun _ _ _ h => of_decide_eq_true h) moveThereAndBack
    (R := fun x => x.2 0 = some false ∧ x.2 1 = some false) (by decide +kernel)
  refine ⟨x, hx, ?_, ?_⟩
  · have hlegal : (MapMove.call (.find 1 5) : MapMove ℕ ℕ).Legal x.2 := by
      simp [MapMove.Legal, MapOp.Legal, MapMove.isSome_names, h1]
    refine (bucket_index_sound_iff _ _ hx _ hlegal).mpr ?_
    rintro _ ⟨⟩
    exact h1
  · have hlegal : (MapMove.bucket 0 1 : MapMove ℕ ℕ).Legal x.2 := by
      simp [MapMove.Legal, h0]
    refine (bucket_index_sound_iff _ _ hx _ hlegal).mpr ?_
    rintro _ ⟨⟩
    exact h0

def searchOfZero : MapMove ℕ ℕ := .call (.find 0 1)

/-- A search in a map that another was constructed from by a move. -/
theorem moved_from_divides_by_zero : ∃ x : Store ℕ ℕ × Moved,
    MoveReached countingAllocator natTraits x ∧ searchOfZero.Legal x.2 ∧
    x.1.maps 0 = some .unset ∧
    stoppedBy (searchOfZero.exec countingAllocator natTraits x.1) = some .divideByZero ∧
    ¬searchOfZero.Sound countingAllocator natTraits x.1 := by
  have hstart : MoveReached countingAllocator natTraits
      ((Store.empty, fun _ => none) : Store ℕ ℕ × Moved) := .start
  obtain ⟨x, hx, hlegal, hum, hstop⟩ := hstart.exists_replay (fun x op => decide (op.Legal x.2))
    (fun _ _ _ h => of_decide_eq_true h) [.call (.construct 0 16), .moveConstruct 1 0]
    (R := fun x => searchOfZero.Legal x.2 ∧ x.1.maps 0 = some .unset ∧
      stoppedBy (searchOfZero.exec countingAllocator natTraits x.1) = some .divideByZero)
    (by decide +kernel)
  exact ⟨x, hx, hlegal, hum, hstop, fun hsound => hsound.2.1 hstop⟩

end NaiLongKernel.Container
