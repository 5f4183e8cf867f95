import NaiLongKernel.Foundation.Reached
import NaiLongKernel.Container.MapTraversal

/-!
# The hash map refines a finite map

A finite map is given by its lookups: for every key, the pair under an equivalent key.
Programs use any number of map objects, construct them, copy them and destroy them. In
every run the map objects hold the finite maps that the same operations give.

An array of `2 ^ 61` pointers does not fit in the address space, and the size that
`rehash` asks for wraps around to zero: it then writes outside of what it was given. So
the runs considered ask for fewer buckets than that.
-/
namespace NaiLongKernel.Container

open Foundation

variable {K V : Type}

/-! ## Finite maps -/

abbrev FiniteMap (K V : Type) := K → Option (K × V)

namespace FiniteMap

/-- A key that is there keeps its pair. -/
def insert (T : KeyTraits K) (f : FiniteMap K V) (e : K × V) : FiniteMap K V := fun k =>
  if (f e.1).isSome then f k else if T.keyEqual e.1 k then some e else f k

def erase (T : KeyTraits K) (f : FiniteMap K V) (key : K) : FiniteMap K V := fun k =>
  if T.keyEqual key k then none else f k

def assign (T : KeyTraits K) (f : FiniteMap K V) (key : K) (v : V) : FiniteMap K V := fun k =>
  if T.keyEqual key k then (f k).map fun e => (e.1, v) else f k

/-- The map has the pairs of the list, each once. -/
def Enumerates (T : KeyTraits K) (l : List (K × V)) (f : FiniteMap K V) : Prop :=
  DistinctKeys T.keyEqual l ∧ f = entryAt T.keyEqual l

end FiniteMap

/-! ## Programs -/

inductive MapOp (K V : Type) where
  /-- With the default or a given number of buckets. -/
  | construct (m : ℕ) (bucketCount : BitVec 64)
  | copyConstruct (m other : ℕ)
  | copyAssign (m other : ℕ)
  | destruct (m : ℕ)
  | insert (m : ℕ) (key : K) (value : V)
  | emplace (m : ℕ) (key : K) (value : V)
  /-- The operator `[]`: the value is read, and replaced if one is given. -/
  | index (m : ℕ) (key : K) (value : Option V)
  | erase (m : ℕ) (key : K)
  | clear (m : ℕ)
  | rehash (m : ℕ) (count : BitVec 64)
  | reserve (m : ℕ) (count : BitVec 64)
  | find (m : ℕ) (key : K)
  | contains (m : ℕ) (key : K)
  | count (m : ℕ) (key : K)
  | size (m : ℕ)
  | visit (m : ℕ)

inductive Answer (K V : Type) where
  | done
  /-- The bucket of the iterator, the pair it refers to, and whether that is new. -/
  | inserted (bucketIdx : ℕ) (e : K × V) (new : Bool)
  | found (e : Option (K × V))
  | value (v : V)
  | flag (b : Bool)
  | number (n : ℕ)
  | pairs (l : List (K × V))

/-- The key behind an iterator that was returned, and the iterator's bucket. -/
def Answer.place : Answer K V → Option (ℕ × K)
  | .inserted bucketIdx e _ => some (bucketIdx, e.1)
  | _ => none

/-- The iterator that `insert` and `emplace` return is dereferenced. -/
def answerInsert (r : Iter × Bool) : MapM K V (Answer K V) := do
  let n ← readNode (← r.1.deref)
  return .inserted r.1.bucketIdx n.data r.2

def exec [Inhabited V] (A : Allocator) (T : KeyTraits K) : MapOp K V → MapM K V (Answer K V)
  | .construct m n => do construct A T m n; return .done
  | .copyConstruct m other => do copyConstruct A T m other; return .done
  | .copyAssign m other => do copyAssign A T m other; return .done
  | .destruct m => do destruct m; return .done
  | .insert m key value => do answerInsert (← insert A T m (key, value))
  | .emplace m key value => do answerInsert (← emplace A T m key value)
  | .index m key value => do
    let p ← index A T m key
    let n ← readNode p
    match value with
    | none => return .value n.data.2
    | some v =>
      writeNode p { n with data := (n.data.1, v) }
      return .value n.data.2
  | .erase m key => do return .number (← erase T m key)
  | .clear m => do clear m; return .done
  | .rehash m n => do rehash A T m n; return .done
  | .reserve m n => do reserve A T m n; return .done
  | .find m key => do
    match (← find T m key).node with
    | none => return .found none
    | some p => return .found (some (← readNode p).data)
  | .contains m key => do return .flag (← contains T m key)
  | .count m key => do return .number (← count T m key)
  | .size m => do return .number (← getMap m).size.toNat
  | .visit m => do return .pairs (← visit m)

/-- The finite maps behind the names of the objects that exist. -/
abbrev MapNames (K V : Type) := ℕ → Option (FiniteMap K V)

namespace MapOp

/-- An object is constructed once, and used while it exists. -/
def Legal (a : MapNames K V) : MapOp K V → Prop
  | construct m _ => a m = none
  | copyConstruct m other => a m = none ∧ (a other).isSome
  | copyAssign m other => (a m).isSome ∧ (a other).isSome
  | destruct m | insert m _ _ | emplace m _ _ | index m _ _ | erase m _ | clear m | rehash m _
  | reserve m _ | find m _ | contains m _ | count m _ | size m | visit m => (a m).isSome

instance (a : MapNames K V) : DecidablePred (Legal a)
  | construct m _ => inferInstanceAs (Decidable (a m = none))
  | copyConstruct m other => inferInstanceAs (Decidable (a m = none ∧ (a other).isSome))
  | copyAssign m other => inferInstanceAs (Decidable ((a m).isSome ∧ (a other).isSome))
  | destruct m | insert m _ _ | emplace m _ _ | index m _ _ | erase m _ | clear m | rehash m _
  | reserve m _ | find m _ | contains m _ | count m _ | size m | visit m =>
    inferInstanceAs (Decidable ((a m).isSome = true))

/-- Fewer buckets are asked for than the address space has room for. -/
def Modest : MapOp K V → Prop
  | construct _ n | rehash _ n => n.toNat < 2 ^ 61
  | reserve _ n => (n + 1).toNat < 2 ^ 61
  | _ => True

instance : DecidablePred (Modest : MapOp K V → Prop)
  | construct _ n | rehash _ n => inferInstanceAs (Decidable (n.toNat < 2 ^ 61))
  | reserve _ n => inferInstanceAs (Decidable ((n + 1).toNat < 2 ^ 61))
  | copyConstruct _ _ | copyAssign _ _ | destruct _ | insert _ _ _ | emplace _ _ _ | index _ _ _
  | erase _ _ | clear _ | find _ _ | contains _ _ | count _ _ | size _ | visit _ =>
    inferInstanceAs (Decidable True)

def apply [Inhabited V] (T : KeyTraits K) (a : MapNames K V) : MapOp K V → MapNames K V
  | construct m _ => Function.update a m (some fun _ => none)
  | copyConstruct m other | copyAssign m other => Function.update a m (a other)
  | destruct m => Function.update a m none
  | insert m key value | emplace m key value =>
    Function.update a m ((a m).map fun f => f.insert T (key, value))
  | index m key value => Function.update a m ((a m).map fun f =>
    match value with
    | none => f.insert T (key, default)
    | some v => (f.insert T (key, default)).assign T key v)
  | erase m key => Function.update a m ((a m).map fun f => f.erase T key)
  | clear m => Function.update a m (some fun _ => none)
  | rehash _ _ | reserve _ _ | find _ _ | contains _ _ | count _ _ | size _ | visit _ => a

/-- The answer is the one of the finite map `f` before the operation. -/
def Answers [Inhabited V] (T : KeyTraits K) (f : FiniteMap K V) : MapOp K V → Answer K V → Prop
  | insert _ key value, r | emplace _ key value, r =>
    ∃ i, r = .inserted i ((f key).getD (key, value)) (f key).isNone
  | index _ key _, r => r = .value ((f key).getD (key, default)).2
  | erase _ key, r | count _ key, r => r = .number (if (f key).isSome then 1 else 0)
  | find _ key, r => r = .found (f key)
  | contains _ key, r => r = .flag (f key).isSome
  | size _, r => ∃ l, FiniteMap.Enumerates T l f ∧ r = .number l.length
  | visit _, r => ∃ l, FiniteMap.Enumerates T l f ∧ r = .pairs l
  | _, r => r = .done

def target : MapOp K V → ℕ
  | construct m _ | copyConstruct m _ | copyAssign m _ | destruct m | insert m _ _ | emplace m _ _
  | index m _ _ | erase m _ | clear m | rehash m _ | reserve m _ | find m _ | contains m _
  | count m _ | size m | visit m => m

end MapOp

/-! ## Refinement -/

/-- An object and its finite map, or neither. -/
inductive Slot (T : KeyTraits K) (mem : NodePtr → Option (Node K V)) :
    Option UMap → Option (FiniteMap K V) → Chains K V → Prop where
  | unused : Slot T mem none none []
  | used {um : UMap} {cs : Chains K V} : Holds T mem um cs →
      Slot T mem (some um) (some (entryAt T.keyEqual (entries cs))) cs

/-- Every object holds its finite map, in nodes of its own. -/
structure Refines (T : KeyTraits K) (s : Store K V) (a : MapNames K V) (chains : ℕ → Chains K V) :
    Prop where
  slot : ∀ m, Slot T s.nodes (s.maps m) (a m) (chains m)
  apart : ∀ m m', m ≠ m' → (ptrs (chains m)).Disjoint (ptrs (chains m'))

section Refinement

variable {T : KeyTraits K} {s t : Store K V} {a : MapNames K V} {chains : ℕ → Chains K V} {m : ℕ}
  {um : UMap}

theorem Slot.live {mem : NodePtr → Option (Node K V)} {um : Option UMap}
    {f : Option (FiniteMap K V)} {cs : Chains K V} (h : Slot T mem um f cs) :
    ∀ p ∈ ptrs cs, mem p ≠ none := by
  cases h with
  | unused => exact fun _ => nofun
  | used h => exact h.live

theorem Slot.frame {mem mem' : NodePtr → Option (Node K V)} {um : Option UMap}
    {f : Option (FiniteMap K V)} {cs : Chains K V} (h : Slot T mem um f cs)
    (hmem : ∀ p ∈ ptrs cs, mem' p = mem p) : Slot T mem' um f cs := by
  cases h with
  | unused => exact .unused
  | used h => exact .used (h.frame hmem)

theorem Refines.used (h : Refines T s a chains) (hm : (a m).isSome) :
    ∃ um, s.maps m = some um ∧ Holds T s.nodes um (chains m) ∧
      a m = some (entryAt T.keyEqual (entries (chains m))) := by
  have hslot := h.slot m
  generalize hmaps : s.maps m = um, ham : a m = f, hc : chains m = cs at hslot hm
  cases hslot with
  | unused => cases hm
  | @used um cs hholds => exact ⟨um, rfl, hholds, rfl⟩

theorem Refines.unused (h : Refines T s a chains) (hm : a m = none) :
    s.maps m = none ∧ chains m = [] := by
  have hslot := h.slot m
  generalize hmaps : s.maps m = um, ham : a m = f, hc : chains m = cs at hslot hm
  cases hslot with
  | unused => exact ⟨rfl, rfl⟩
  | used => cases hm

theorem refines_empty (T : KeyTraits K) :
    Refines T (Store.empty : Store K V) (fun _ => none) fun _ => [] :=
  ⟨fun _ => .unused, fun _ _ _ _ hp => by cases hp⟩

theorem Refines.update (h : Refines T s a chains) {cs : Chains K V} {f : Option (FiniteMap K V)}
    (htouch : Touches m (ptrs (chains m)) s t (ptrs cs)) (hslot : Slot T t.nodes (t.maps m) f cs) :
    Refines T t (Function.update a m f) (Function.update chains m cs) := by
  obtain ⟨hslots, hapart⟩ :=
    Separate.update ⟨h.slot, h.apart⟩ Slot.live Slot.frame htouch hslot
  exact ⟨hslots, hapart⟩

/-! ## Lookups after the operations -/

variable {cs cs' : Chains K V} {key : K}

theorem Found.entryAt_eq {mem : NodePtr → Option (Node K V)} (h : Holds T mem um cs)
    {r : Option NodePtr} (hr : Found T cs key r) :
    (r = none ∧ entryAt T.keyEqual (entries cs) key = none) ∨
      ∃ x ∈ cs.flatten, r = some x.1 ∧ entryAt T.keyEqual (entries cs) key = some x.2 := by
  cases hr with
  | absent habsent =>
    refine Or.inl ⟨rfl, entryAt_eq_none.mpr fun e he => ?_⟩
    obtain ⟨x, hx, rfl⟩ := List.mem_map.mp he
    exact habsent x hx
  | present x hx hkey =>
    refine Or.inr ⟨x, hx, rfl, ?_⟩
    exact (T.equiv.entryAt_eq_some h.keys).mpr ⟨List.mem_map_of_mem hx, hkey⟩

theorem Found.isSome_eq {mem : NodePtr → Option (Node K V)} (h : Holds T mem um cs)
    {r : Option NodePtr} (hr : Found T cs key r) :
    r.isSome = (entryAt T.keyEqual (entries cs) key).isSome := by
  rcases hr.entryAt_eq h with ⟨rfl, hnone⟩ | ⟨x, -, rfl, hsome⟩
  · rw [hnone]
    rfl
  · rw [hsome]
    rfl

theorem Inserted.entryAt_eq {mem mem' : NodePtr → Option (Node K V)} {um um' : UMap} {e : K × V}
    (h : Holds T mem um cs) (h' : Holds T mem' um' cs') {p : NodePtr} {b : Bool}
    (hins : Inserted T e cs cs' (some p) b) :
    (p, (entryAt T.keyEqual (entries cs) e.1).getD e) ∈ cs'.flatten ∧
      b = (entryAt T.keyEqual (entries cs) e.1).isNone ∧
      entryAt T.keyEqual (entries cs') =
        FiniteMap.insert T (entryAt T.keyEqual (entries cs)) e := by
  cases hins with
  | present x hx hkey hc =>
    subst hc
    have hlook := (T.equiv.entryAt_eq_some h.keys).mpr ⟨List.mem_map_of_mem hx, hkey⟩
    refine ⟨?_, ?_, ?_⟩
    · rw [hlook]
      exact hx
    · rw [hlook]
      rfl
    · funext k
      rw [FiniteMap.insert, hlook]
      rfl
  | new p habsent hperm =>
    have hlook : entryAt T.keyEqual (entries cs) e.1 = none := by
      refine entryAt_eq_none.mpr fun d hd => ?_
      obtain ⟨x, hx, rfl⟩ := List.mem_map.mp hd
      exact habsent x hx
    refine ⟨?_, ?_, ?_⟩
    · rw [hlook]
      exact hperm.mem_iff.mpr List.mem_cons_self
    · rw [hlook]
      rfl
    · funext k
      rw [FiniteMap.insert, hlook, T.equiv.entryAt_perm h'.keys (hperm.map Prod.snd)]
      exact entryAt_cons

theorem Erased.entryAt_eq {mem : NodePtr → Option (Node K V)} (h : Holds T mem um cs)
    {n : ℕ} (her : Erased T key cs cs' n) :
    n = (if (entryAt T.keyEqual (entries cs) key).isSome then 1 else 0) ∧
      entryAt T.keyEqual (entries cs') = FiniteMap.erase T (entryAt T.keyEqual (entries cs)) key := by
  cases her with
  | absent habsent hc =>
    subst hc
    have hlook : entryAt T.keyEqual (entries cs') key = none := by
      refine entryAt_eq_none.mpr fun d hd => ?_
      obtain ⟨x, hx, rfl⟩ := List.mem_map.mp hd
      exact habsent x hx
    refine ⟨by rw [hlook]; rfl, ?_⟩
    funext k
    rw [FiniteMap.erase]
    split
    · rename_i hk
      rw [← T.equiv.entryAt_congr hk, hlook]
    · rfl
  | removed x hkey hperm =>
    have hmem : x ∈ cs.flatten := hperm.mem_iff.mpr List.mem_cons_self
    have hlook := (T.equiv.entryAt_eq_some h.keys).mpr ⟨List.mem_map_of_mem hmem, hkey⟩
    have hkeys := (T.equiv.distinct_perm (hperm.map Prod.snd)).mp h.keys
    refine ⟨by rw [hlook]; rfl, ?_⟩
    funext k
    rw [FiniteMap.erase, T.equiv.entryAt_perm h.keys (hperm.map Prod.snd)]
    have hxk : T.keyEqual x.2.1 k = T.keyEqual key k := by
      rw [T.equiv.comm, T.equiv.comm key, T.equiv.congr_right hkey]
    rw [← hxk]
    exact T.equiv.entryAt_tail hkeys

theorem entryAt_write {x : NodePtr × K × V} {rest : List (NodePtr × K × V)} {v : V}
    {mem mem' : NodePtr → Option (Node K V)} {um um' : UMap} (h : Holds T mem um cs)
    (h' : Holds T mem' um' cs') (hold : cs.flatten.Perm (x :: rest))
    (hnew : cs'.flatten.Perm ((x.1, x.2.1, v) :: rest)) (hkey : T.keyEqual x.2.1 key = true) :
    entryAt T.keyEqual (entries cs') =
      FiniteMap.assign T (entryAt T.keyEqual (entries cs)) key v := by
  funext k
  rw [FiniteMap.assign, T.equiv.entryAt_perm h.keys (hold.map Prod.snd),
    T.equiv.entryAt_perm h'.keys (hnew.map Prod.snd), List.map_cons, List.map_cons, entryAt_cons,
    entryAt_cons]
  have hxk : T.keyEqual x.2.1 k = T.keyEqual key k := by
    rw [T.equiv.comm, T.equiv.comm key, T.equiv.congr_right hkey]
  simp only [hxk]
  split <;> simp

theorem entryAt_empty (h : cs.flatten = []) :
    entryAt T.keyEqual (entries cs) = fun _ => none := by
  funext k
  simp [entries, h, entryAt]

end Refinement

/-! ## Every operation -/

section Exec

variable {T : KeyTraits K} {s : Store K V} {a : MapNames K V} {chains : ℕ → Chains K V} {m : ℕ}

theorem Refines.renew (h : Refines T s a chains) {t : Store K V} {cs : Chains K V}
    {l : List (K × V)} (hum : t.maps m = some um) (hc : Holds T t.nodes um cs)
    (htouch : Touches m (ptrs (chains m)) s t (ptrs cs)) (hl : (entries cs).Perm l) :
    ∃ chains', Refines T t (Function.update a m (some (entryAt T.keyEqual l))) chains' := by
  have hlook : entryAt T.keyEqual l = entryAt T.keyEqual (entries cs) := by
    funext k
    exact (T.equiv.entryAt_perm hc.keys hl).symm
  rw [hlook]
  exact ⟨_, h.update htouch (hum ▸ .used hc)⟩

theorem wp_answerInsert {E : MapFault → Store K V → Prop} {e : K × V}
    {cs : Chains K V} {p : NodePtr} {i : ℕ} {b : Bool} (h : Holds T s.nodes um cs)
    (hp : (p, e) ∈ cs.flatten) :
    wp (answerInsert (⟨i, some p⟩, b)) (fun r t => t = s ∧ r = .inserted i e b) E s := by
  obtain ⟨next, hmem⟩ := h.table.live hp
  simp only [answerInsert, Iter.deref, wp_bind, wp_pure, wp_readNode hmem]
  exact ⟨trivial, trivial⟩

theorem Holds.wp_insert_answer (A : Allocator) {e : K × V} {cs : Chains K V}
    (hum : s.maps m = some um) (h : Holds T s.nodes um cs) :
    wp (do answerInsert (← insert A T m e)) (fun r t => ∃ um' cs', t.maps m = some um' ∧
      Holds T t.nodes um' cs' ∧ Touches m (ptrs cs) s t (ptrs cs') ∧
      r = .inserted (um'.bucketIndex T e.1) ((entryAt T.keyEqual (entries cs) e.1).getD e)
        (entryAt T.keyEqual (entries cs) e.1).isNone ∧
      entryAt T.keyEqual (entries cs') =
        FiniteMap.insert T (entryAt T.keyEqual (entries cs)) e) OutOfMemory s := by
  rw [wp_bind]
  refine (wp_insert A hum h).imp ?_
  rintro ⟨⟨i, r⟩, b⟩ t ⟨um', cs', hum', h', htouch, hins, hidx⟩
  dsimp only at hins hidx
  obtain ⟨p, rfl⟩ : ∃ p, r = some p := by
    cases hins with
    | present x => exact ⟨x.1, rfl⟩
    | new p => exact ⟨p, rfl⟩
  obtain ⟨hmem, rfl, hlook⟩ := hins.entryAt_eq h h'
  refine (wp_answerInsert h' hmem).imp ?_
  rintro r u ⟨rfl, rfl⟩
  exact ⟨um', cs', hum', h', htouch, by rw [hidx], hlook⟩

theorem wp_exec_insert (A : Allocator) {e : K × V} (h : Refines T s a chains)
    (hm : (a m).isSome) :
    wp (do answerInsert (← insert A T m e)) (fun r t =>
      (∃ i, r = .inserted i ((((a m).getD fun _ => none) e.1).getD e)
        (((a m).getD fun _ => none) e.1).isNone) ∧
      (∀ i key, r.place = some (i, key) →
        ∃ um, t.maps m = some um ∧ i = um.bucketIndex T key) ∧
      ∃ chains', Refines T t (Function.update a m ((a m).map fun f => f.insert T e)) chains')
      OutOfMemory s := by
  obtain ⟨um, hum, hc, ha⟩ := h.used hm
  refine (hc.wp_insert_answer A hum).imp ?_
  rintro _ t ⟨um', cs', hum', h', htouch, rfl, hlook⟩
  rw [ha]
  refine ⟨⟨_, rfl⟩, ?_, ?_⟩
  · rintro _ _ ⟨⟩
    refine ⟨um', hum', um'.bucketIndex_congr T ?_⟩
    cases hfind : entryAt T.keyEqual (entries (chains m)) e.1 with
    | none => exact T.refl _
    | some d => exact T.symm _ _ ((T.equiv.entryAt_eq_some hc.keys).mp hfind).2
  · refine ⟨_, h.update htouch ?_⟩
    rw [hum', Option.map_some, ← hlook]
    exact .used h'

variable [Inhabited V]

/-- The operation gave the answer of the finite map, an iterator it returned is in the right
bucket, and the objects hold the finite maps after the operation. -/
structure MapOp.Done (T : KeyTraits K) (a : MapNames K V) (op : MapOp K V) (r : Answer K V)
    (t : Store K V) : Prop where
  answer : op.Answers T ((a op.target).getD fun _ => none) r
  bucket : ∀ i key, r.place = some (i, key) →
    ∃ um, t.maps op.target = some um ∧ i = um.bucketIndex T key
  refines : ∃ chains, Refines T t (op.apply T a) chains

/-- What the operator `[]` makes of a finite map. -/
def FiniteMap.index (T : KeyTraits K) (f : FiniteMap K V) (key : K) : Option V → FiniteMap K V
  | none => f.insert T (key, default)
  | some v => (f.insert T (key, default)).assign T key v

theorem Holds.wp_index_answer (A : Allocator) {key : K} {value : Option V}
    {cs : Chains K V} (hum : s.maps m = some um) (h : Holds T s.nodes um cs) :
    wp (exec A T (.index m key value)) (fun r t => ∃ um' cs', t.maps m = some um' ∧
      Holds T t.nodes um' cs' ∧ Touches m (ptrs cs) s t (ptrs cs') ∧
      r = .value ((entryAt T.keyEqual (entries cs) key).getD (key, default)).2 ∧
      entryAt T.keyEqual (entries cs') =
        FiniteMap.index T (entryAt T.keyEqual (entries cs)) key value) OutOfMemory s := by
  simp only [exec, wp_bind]
  refine (wp_index A hum h).imp ?_
  rintro p t ⟨um', cs', b, hum', h', htouch, hins⟩
  obtain ⟨hmem, -, hlook⟩ := hins.entryAt_eq h h'
  set d := (entryAt T.keyEqual (entries cs) key).getD (key, default) with hd
  obtain ⟨next, hnode⟩ := h'.table.live hmem
  have hkey : T.keyEqual d.1 key = true := by
    rw [hd]
    cases hfind : entryAt T.keyEqual (entries cs) key with
    | none => exact T.refl _
    | some d => exact ((T.equiv.entryAt_eq_some h.keys).mp hfind).2
  rw [wp_readNode hnode]
  cases value with
  | none => exact (wp_pure _).mpr ⟨um', cs', hum', h', htouch, rfl, hlook⟩
  | some v =>
    obtain ⟨cs'', rest, h'', hold, hnew⟩ := h'.write hmem hnode v
    simp only [wp_bind, wp_writeNode hnode, wp_pure]
    have htouch' : Touches m (ptrs cs') t
        { t with nodes := Function.update t.nodes p (some ⟨(d.1, v), next⟩) } (ptrs cs'') := by
      refine ⟨fun _ _ => rfl, fun q hq _ => ?_, fun q hq => Or.inl ?_⟩
      · apply Function.update_of_ne
        rintro rfl
        exact hq (List.mem_map_of_mem hmem)
      · exact (hold.map Prod.fst).mem_iff.mpr ((hnew.map Prod.fst).mem_iff.mp hq)
    refine ⟨um', cs'', hum', h'', htouch.trans htouch', trivial, ?_⟩
    rw [entryAt_write h' h'' hold hnew hkey, hlook]
    rfl

theorem wp_exec_index (A : Allocator) {key : K} {value : Option V} (h : Refines T s a chains)
    (hm : (a m).isSome) :
    wp (exec A T (.index m key value)) (fun r t => (MapOp.index m key value).Done T a r t)
      OutOfMemory s := by
  obtain ⟨um, hum, hc, ha⟩ := h.used hm
  refine (hc.wp_index_answer A hum).imp ?_
  rintro _ t ⟨um', cs', hum', h', htouch, rfl, hlook⟩
  refine ⟨?_, ?_, _, h.update htouch ?_⟩
  · simp only [MapOp.Answers, MapOp.target, ha, Option.getD_some]
  · rintro _ _ ⟨⟩
  · have hslot := Slot.used h'
    rw [hlook] at hslot
    rw [hum', ha, Option.map_some]
    cases value <;> exact hslot

theorem MapOp.Done.of_renewed {op : MapOp K V} {t : Store K V} {cs : Chains K V}
    {l : List (K × V)} (h : Refines T s a chains) (hum : t.maps op.target = some um)
    (hc : Holds T t.nodes um cs)
    (htouch : Touches op.target (ptrs (chains op.target)) s t (ptrs cs)) (hl : (entries cs).Perm l)
    (happly : op.apply T a = Function.update a op.target (some (entryAt T.keyEqual l)))
    (hanswer : ∀ f, op.Answers T f .done) : op.Done T a .done t := by
  refine ⟨hanswer _, ?_, ?_⟩
  · rintro _ _ ⟨⟩
  · rw [happly]
    exact h.renew hum hc htouch hl

theorem MapOp.Done.of_query {op : MapOp K V} {r : Answer K V} (h : Refines T s a chains)
    (happly : op.apply T a = a) (hanswer : op.Answers T ((a op.target).getD fun _ => none) r)
    (hr : r.place = none) : op.Done T a r s := by
  refine ⟨hanswer, ?_, chains, by rwa [happly]⟩
  intro i key hplace
  rw [hr] at hplace
  cases hplace

theorem wp_exec_rehash (A : Allocator) (op : MapOp K V) {n : BitVec 64}
    (h : Refines T s a chains) (hum : s.maps op.target = some um)
    (hc : Holds T s.nodes um (chains op.target))
    (ha : a op.target = some (entryAt T.keyEqual (entries (chains op.target))))
    (hn : n.toNat < 2 ^ 61) (happly : op.apply T a = a) (hanswer : ∀ f, op.Answers T f .done) :
    wp (rehash A T op.target n) (fun _ t => op.Done T a .done t) OutOfMemory s := by
  refine wp_mono (wp_rehash A hum hc.toLinked) ?_ (Exhausted.outOfMemory hn)
  rintro _ t ⟨um', cs', hum', h', hperm, htouch⟩
  refine .of_renewed h hum' h' htouch (entries_perm hperm) ?_ hanswer
  rw [happly, ← ha, Function.update_eq_self]

theorem wp_exec (A : Allocator) (op : MapOp K V) (h : Refines T s a chains) (hlegal : op.Legal a)
    (hmodest : op.Modest) : wp (exec A T op) (fun r t => op.Done T a r t) OutOfMemory s := by
  cases op with
  | construct m n =>
    obtain ⟨-, hchains⟩ := h.unused hlegal
    simp only [exec, construct, wp_bind, wp_setMap, wp_pure]
    refine wp_mono (wp_rehash A (Function.update_self ..) (Linked.unset T s.nodes)) ?_
      (Exhausted.outOfMemory hmodest)
    rintro _ t ⟨um, cs, hum, hc, hperm, htouch⟩
    refine .of_renewed h hum hc ?_ (entries_perm hperm) ?_ fun _ => rfl
    · rw [MapOp.target, hchains]
      exact (Touches.unset m s).trans htouch
    · rw [entryAt_empty rfl]
      rfl
  | copyConstruct m other =>
    obtain ⟨-, hchains⟩ := h.unused hlegal.1
    obtain ⟨um, hum, hc, ha⟩ := h.used hlegal.2
    simp only [exec, copyConstruct, wp_bind, wp_getMap hum, wp_setMap, wp_pure]
    refine wp_mono (wp_insertAll A (Function.update_self ..) hc.toLinked hc.bound) ?_ (fun _ _ he => he)
    rintro _ t ⟨um', cs', hum', h', htouch, hperm⟩
    refine .of_renewed h hum' h' ?_ hperm ?_ fun _ => rfl
    · rw [MapOp.target, hchains]
      exact (Touches.unset m s).trans htouch
    · rw [← ha]
      rfl
  | copyAssign m other =>
    obtain ⟨um, hum, hc, ha⟩ := h.used hlegal.1
    obtain ⟨um', hum', hc', ha'⟩ := h.used hlegal.2
    simp only [exec, copyAssign, wp_bind, wp_ite, wp_pure]
    split
    · rename_i hne
      rw [wp_getMap hum']
      refine (wp_destroy hum hc.toLinked).imp ?_
      rintro _ t ⟨hunset, htouch⟩
      have hother := htouch.linked hc'.toLinked (h.apart other m (Ne.symm hne))
      refine (wp_insertAll A hunset hother hc'.bound).imp ?_
      rintro _ u ⟨um'', cs'', hum'', h'', htouch', hperm⟩
      refine .of_renewed h hum'' h'' (htouch.trans htouch') hperm ?_ fun _ => rfl
      rw [← ha']
      rfl
    · rename_i heq
      rw [not_not] at heq
      subst heq
      exact .of_query h (Function.update_eq_self _ _) rfl rfl
  | destruct m =>
    obtain ⟨um, hum, hc, ha⟩ := h.used hlegal
    simp only [exec, destruct, wp_bind, wp_setMap, wp_pure]
    refine (wp_destroy hum hc.toLinked).imp ?_
    rintro _ t ⟨-, htouch⟩
    refine ⟨rfl, ?_, Function.update chains m [], h.update ⟨?_, htouch.nodes, htouch.fresh⟩ ?_⟩
    · rintro _ _ ⟨⟩
    · intro m' hm'
      exact (Function.update_of_ne hm' _ _).trans (htouch.maps m' hm')
    · simp only [Function.update_self]
      exact .unused
  | insert | emplace =>
    refine (wp_exec_insert A h hlegal).imp ?_
    rintro r t ⟨hanswer, hbucket, hrefines⟩
    exact ⟨hanswer, hbucket, hrefines⟩
  | index m key value => exact wp_exec_index A h hlegal
  | erase m key =>
    obtain ⟨um, hum, hc, ha⟩ := h.used hlegal
    simp only [exec, wp_bind, wp_pure]
    refine (wp_erase hum hc).imp ?_
    rintro n t ⟨um', cs', hum', h', htouch, her⟩
    obtain ⟨rfl, hlook⟩ := her.entryAt_eq hc
    refine ⟨?_, ?_, _, h.update htouch ?_⟩
    · simp only [MapOp.Answers, MapOp.target, ha, Option.getD_some]
    · rintro _ _ ⟨⟩
    · rw [hum', ha, Option.map_some, ← hlook]
      exact .used h'
  | clear m =>
    obtain ⟨um, hum, hc, ha⟩ := h.used hlegal
    simp only [exec, wp_bind, wp_pure]
    refine (wp_clear hum hc.toLinked).imp ?_
    rintro _ t ⟨hum', htouch⟩
    refine .of_renewed h hum' (hc.cleared t) ?_ (List.Perm.refl _) ?_ fun _ => rfl
    · rw [ptrs_replicate_nil]
      exact htouch
    · rw [entryAt_empty List.flatten_replicate_nil]
      rfl
  | rehash m n =>
    obtain ⟨um, hum, hc, ha⟩ := h.used hlegal
    simp only [exec, wp_bind, wp_pure]
    exact wp_exec_rehash A (.rehash m n) h hum hc ha hmodest rfl fun _ => rfl
  | reserve m n =>
    obtain ⟨um, hum, hc, ha⟩ := h.used hlegal
    have hone : n / kMaxLoadFactor + 1 = n + 1 := congrArg (· + 1) BitVec.udiv_one
    simp only [exec, reserve, wp_bind, wp_getMap hum, wp_ite, wp_pure, hone]
    split
    · exact wp_exec_rehash A (.reserve m n) h hum hc ha hmodest rfl fun _ => rfl
    · exact .of_query h rfl rfl rfl
  | find m key =>
    obtain ⟨um, hum, hc, ha⟩ := h.used hlegal
    simp only [exec, wp_bind]
    refine (wp_find hum hc).imp ?_
    rintro ⟨i, r⟩ t ⟨rfl, hfound, -⟩
    rcases hfound.entryAt_eq hc with ⟨hr, hlook⟩ | ⟨x, hx, hr, hlook⟩
    · obtain rfl : r = none := hr
      refine (wp_pure _).mpr (.of_query h rfl ?_ rfl)
      simp only [MapOp.Answers, MapOp.target, ha, Option.getD_some, hlook]
    · obtain rfl : r = some x.1 := hr
      obtain ⟨next, hnode⟩ := hc.table.live hx
      simp only [wp_bind, wp_readNode hnode, wp_pure]
      refine .of_query h rfl ?_ rfl
      simp only [MapOp.Answers, MapOp.target, ha, Option.getD_some, hlook]
  | contains m key =>
    obtain ⟨um, hum, hc, ha⟩ := h.used hlegal
    simp only [exec, wp_bind, wp_pure]
    refine (wp_contains hum hc).imp ?_
    rintro b t ⟨rfl, r, hfound, rfl⟩
    refine .of_query h rfl ?_ rfl
    simp only [MapOp.Answers, MapOp.target, ha, Option.getD_some, hfound.isSome_eq hc]
  | count m key =>
    obtain ⟨um, hum, hc, ha⟩ := h.used hlegal
    simp only [exec, wp_bind, wp_pure]
    refine (wp_count hum hc).imp ?_
    rintro n t ⟨rfl, r, hfound, rfl⟩
    refine .of_query h rfl ?_ rfl
    simp only [MapOp.Answers, MapOp.target, ha, Option.getD_some, hfound.isSome_eq hc]
  | size m =>
    obtain ⟨um, hum, hc, ha⟩ := h.used hlegal
    simp only [exec, wp_bind, wp_getMap hum, wp_pure]
    refine .of_query h rfl ⟨entries (chains m), ⟨hc.keys, ?_⟩, ?_⟩ rfl
    · simp only [MapOp.target, ha, Option.getD_some]
    · rw [hc.size, entries, List.length_map]
  | visit m =>
    obtain ⟨um, hum, hc, ha⟩ := h.used hlegal
    simp only [exec, wp_bind, wp_pure]
    refine (wp_visit hum hc.toLinked).imp ?_
    rintro l t ⟨rfl, rfl⟩
    refine .of_query h rfl ⟨entries (chains m), ⟨hc.keys, ?_⟩, rfl⟩ rfl
    simp only [MapOp.target, ha, Option.getD_some]

/-! ## Runs -/

/-- The state of a program, and the finite maps that its operations gave. -/
def mapStep (A : Allocator) (T : KeyTraits K) (x : Store K V × MapNames K V) (op : MapOp K V) :
    Option (Store K V × MapNames K V) :=
  match exec A T op x.1 with
  | .ok _ t => some (t, op.apply T x.2)
  | .error _ _ => none

theorem mapStep_refines (A : Allocator) {op : MapOp K V} {t : Store K V} {b : MapNames K V}
    (h : ∃ chains, Refines T s a chains) (hlegal : op.Legal a) (hmodest : op.Modest)
    (hstep : mapStep A T (s, a) op = some (t, b)) : ∃ chains, Refines T t b chains := by
  obtain ⟨chains, h⟩ := h
  have hexec := wp_exec A op h hlegal hmodest
  rw [mapStep] at hstep
  dsimp only at hstep
  split at hstep
  · rename_i hrun
    cases hstep
    exact (hexec.of_ok hrun).refines
  · cases hstep

end Exec

/-- In every run with modest requests the map objects hold the finite maps of the run, every
key in the bucket of its hash and in no other, and every further operation gives the answer
of its finite map; it can only fail when `operator new` has no memory. -/
theorem unordered_map_refines_finite_map [Inhabited V] (A : Allocator) (T : KeyTraits K)
    {s : Store K V} {a : MapNames K V}
    (h : Reached (mapStep A T) (fun x op => op.Legal x.2 ∧ op.Modest)
      (Store.empty, fun _ => none) (s, a)) :
    (∃ chains, Refines T s a chains) ∧
      ∀ op : MapOp K V, op.Legal a → op.Modest →
        wp (exec A T op) (fun r t => op.Done T a r t) OutOfMemory s := by
  have hrefines : ∃ chains, Refines T s a chains :=
    h.invariant (I := fun x => ∃ chains, Refines T x.1 x.2 chains) ⟨_, refines_empty T⟩
      fun x op y hx hop hstep => mapStep_refines A hx hop.1 hop.2 hstep
  refine ⟨hrefines, fun op hlegal hmodest => ?_⟩
  obtain ⟨chains, hr⟩ := hrefines
  exact wp_exec A op hr hlegal hmodest

/-! ## Concrete runs -/

def natTraits : KeyTraits ℕ where
  hash n := BitVec.ofNat 64 n
  keyEqual a b := a == b
  refl := by simp
  symm := by simp
  trans := by simp
  hash_eq := by simp

/-- Memory that is never short: the call number is the address, while that is free. -/
def countingAllocator : Allocator where
  node n live := if live (BitVec.ofNat 60 n) then none else some (BitVec.ofNat 60 n)
  array _ _ := true
  node_fresh := by
    intro n live p h
    split at h
    · cases h
    · rename_i hlive
      cases h
      simpa using hlive

/-- The third key makes two buckets into four; a copy is made, and one key erased from it. -/
def growAndCopy : List (MapOp ℕ ℕ) :=
  [.construct 0 2, .insert 0 1 10, .insert 0 3 30, .insert 0 5 50, .insert 0 3 31,
    .copyConstruct 1 0, .erase 1 3, .index 1 9 (some 90)]

theorem unordered_map_refines_finite_map_example : ∃ (s : Store ℕ ℕ) (a : MapNames ℕ ℕ),
    (a 0).bind (fun f => f 3) = some (3, 30) ∧ (a 1).bind (fun f => f 3) = none ∧
      (a 1).bind (fun f => f 9) = some (9, 90) ∧
      wp (exec countingAllocator natTraits (.find 1 9))
        (fun r t => (MapOp.find 1 9).Done natTraits a r t) OutOfMemory s := by
  have hstart : Reached (mapStep countingAllocator natTraits)
      (fun x op => op.Legal x.2 ∧ op.Modest) (Store.empty, fun _ => none)
      ((Store.empty, fun _ => none) : Store ℕ ℕ × MapNames ℕ ℕ) := .start
  obtain ⟨⟨s, a⟩, hrun, h0, h1, h2, h3⟩ := hstart.exists_replay
    (fun x op => decide (op.Legal x.2 ∧ op.Modest)) (fun _ _ _ h => of_decide_eq_true h) growAndCopy
    (R := fun x => (x.2 0).bind (fun f => f 3) = some (3, 30) ∧
      (x.2 1).bind (fun f => f 3) = none ∧ (x.2 1).bind (fun f => f 9) = some (9, 90) ∧
      (x.2 1).isSome) (by decide +kernel)
  exact ⟨s, a, h0, h1, h2,
    (unordered_map_refines_finite_map countingAllocator natTraits hrun).2 _ h3 trivial⟩

/-- With `2 ^ 61` buckets the size wraps around to zero bytes, and the null pointers are
written outside of the array. -/
theorem rehash_writes_outside : ∃ (s : Store ℕ ℕ) (a : MapNames ℕ ℕ),
    Reached (mapStep countingAllocator natTraits) (fun x op => op.Legal x.2)
      (Store.empty, fun _ => none) (s, a) ∧ (MapOp.rehash 0 (2 ^ 61)).Legal a ∧
      stoppedBy (exec countingAllocator natTraits (.rehash 0 (2 ^ 61)) s) =
        some .outOfBounds := by
  have hstart : Reached (mapStep countingAllocator natTraits) (fun x op => op.Legal x.2)
      (Store.empty, fun _ => none) ((Store.empty, fun _ => none) : Store ℕ ℕ × MapNames ℕ ℕ) :=
    .start
  obtain ⟨⟨s, a⟩, hrun, hlegal, hstop⟩ := hstart.exists_replay
    (fun x op => decide (op.Legal x.2)) (fun _ _ _ h => of_decide_eq_true h)
    [.construct 0 kDefaultBucketCount]
    (R := fun x => (MapOp.rehash 0 (2 ^ 61) : MapOp ℕ ℕ).Legal x.2 ∧
      stoppedBy (exec countingAllocator natTraits (.rehash 0 (2 ^ 61)) x.1) = some .outOfBounds)
    (by decide +kernel)
  exact ⟨s, a, hrun, hlegal, hstop⟩

end NaiLongKernel.Container
