import Mathlib.Data.BitVec
import NaiLongKernel.Foundation.Outcome
import NaiLongKernel.Foundation.HashChains

/-!
# The hash map `nk_std::unordered_map`

A map object has an array of buckets, and every bucket is a chain of nodes. Maps and
nodes live in a store: a node that was deleted is gone, and reading it, writing it or
deleting it again is a fault. The kernel's `operator new` returns null when it has no
memory, and its callers write through the result.
-/
namespace NaiLongKernel.Container

open Foundation

/-- A hash function, and a key equality that is an equivalence compatible with it. -/
structure KeyTraits (K : Type) where
  hash : K → BitVec 64
  keyEqual : K → K → Bool
  refl : ∀ a, keyEqual a a = true
  symm : ∀ a b, keyEqual a b = true → keyEqual b a = true
  trans : ∀ a b c, keyEqual a b = true → keyEqual b c = true → keyEqual a c = true
  hash_eq : ∀ a b, keyEqual a b = true → hash a = hash b

/-- The address of a node, in units of 16 bytes: a node holds a pair and a pointer, so no
two nodes begin in one unit. -/
abbrev NodePtr := BitVec 60

abbrev Node (K V : Type) := Cell NodePtr (K × V)

/-- The fields `buckets_`, `bucket_count_` and `size_`; the array is its contents. -/
structure UMap where
  buckets : List (Option NodePtr)
  bucketCount : BitVec 64
  size : BitVec 64
deriving DecidableEq, Repr

/-- The object before its constructor has allocated the buckets, or after `destroy`. -/
def UMap.unset : UMap := ⟨[], 0, 0⟩

/-- The position and the node of an iterator; null at the end. -/
structure Iter where
  bucketIdx : ℕ
  node : Option NodePtr
deriving DecidableEq, Repr

/-- The answers of `operator new`, by the number of the call. -/
structure Allocator where
  node : ℕ → (NodePtr → Bool) → Option NodePtr
  array : ℕ → BitVec 64 → Bool
  node_fresh : ∀ {n live p}, node n live = some p → live p = false

structure Store (K V : Type) where
  nodes : NodePtr → Option (Node K V)
  maps : ℕ → Option UMap
  calls : ℕ

def Store.empty {K V : Type} : Store K V := ⟨fun _ => none, fun _ => none, 0⟩

inductive MapFault where
  /-- An access outside the array of buckets. -/
  | outOfBounds
  /-- An access to the array of buckets when there is none. -/
  | nullBuckets
  /-- A remainder modulo `bucket_count_`, which is zero. -/
  | divideByZero
  /-- A node that is not there is read, written or deleted. -/
  | deadNode
  /-- `operator new` returned null. -/
  | outOfMemory
  /-- A walk that does not end. -/
  | diverges
  | noMap
deriving DecidableEq, Repr

abbrev MapM (K V : Type) := EStateM MapFault (Store K V)

variable {K V : Type}

/-! ## Memory -/

def getMap (m : ℕ) : MapM K V UMap := do
  match (← get).maps m with
  | some um => return um
  | none => throw .noMap

def setMap (m : ℕ) (um : Option UMap) : MapM K V Unit :=
  modify fun s => { s with maps := Function.update s.maps m um }

def readNode (p : NodePtr) : MapM K V (Node K V) := do
  match (← get).nodes p with
  | some n => return n
  | none => throw .deadNode

def writeNode (p : NodePtr) (n : Node K V) : MapM K V Unit := do
  let _ ← readNode p
  modify fun s => { s with nodes := Function.update s.nodes p (some n) }

def deleteNode (p : NodePtr) : MapM K V Unit := do
  let _ ← readNode p
  modify fun s => { s with nodes := Function.update s.nodes p none }

def readBucket (buckets : List (Option NodePtr)) (i : ℕ) : MapM K V (Option NodePtr) :=
  match buckets[i]? with
  | some h => return h
  | none => throw (if buckets.isEmpty then .nullBuckets else .outOfBounds)

/-- `::operator new(sizeof(Node))`, constructed in place. -/
def newNode (A : Allocator) (n : Node K V) : MapM K V NodePtr := do
  let s ← get
  match A.node s.calls fun p => (s.nodes p).isSome with
  | none => throw .outOfMemory
  | some p =>
    modify fun s => { s with nodes := Function.update s.nodes p (some n), calls := s.calls + 1 }
    return p

/-- `::operator new(count * sizeof(Node*))`, then `count` null pointers are written. The
product is a 64-bit number. -/
def newBuckets (A : Allocator) (count : BitVec 64) : MapM K V (List (Option NodePtr)) := do
  let s ← get
  let bytes := count * 8
  if !A.array s.calls bytes then
    throw .outOfMemory
  modify fun s => { s with calls := s.calls + 1 }
  if bytes.toNat < 8 * count.toNat then
    throw .outOfBounds
  return List.replicate count.toNat none

/-! ## Walks along a chain -/

/-- No chain of the map has more nodes than the map, so a longer walk does not end. -/
def UMap.fuel (um : UMap) : ℕ := um.size.toNat + 1

/-- The search shared by `insert` and `find`. -/
def searchChain (T : KeyTraits K) (key : K) : ℕ → Option NodePtr → MapM K V (Option NodePtr)
  | 0, _ => throw .diverges
  | _ + 1, none => return none
  | fuel + 1, some p => do
    let n ← readNode p
    if T.keyEqual n.data.1 key then
      return some p
    else
      searchChain T key fuel n.next

/-- The loops of `clear` and `rehash`: `next` is read before the body changes the node. -/
def foldChain {β : Type} (body : β → NodePtr → Node K V → MapM K V β) :
    ℕ → β → Option NodePtr → MapM K V β
  | 0, _, _ => throw .diverges
  | _ + 1, acc, none => return acc
  | fuel + 1, acc, some p => do
    let n ← readNode p
    foldChain body fuel (← body acc p n) n.next

/-! ## Operations -/

def UMap.bucketIndex (T : KeyTraits K) (um : UMap) (key : K) : ℕ :=
  (T.hash key % um.bucketCount).toNat

/-- `bucket_index`. -/
def bucketIndex (T : KeyTraits K) (um : UMap) (key : K) : MapM K V ℕ := do
  if um.bucketCount = 0 then
    throw .divideByZero
  return um.bucketIndex T key

def kDefaultBucketCount : BitVec 64 := 16
def kMaxLoadFactor : BitVec 64 := 1

def relink (T : KeyTraits K) (count : BitVec 64) (newBuckets : List (Option NodePtr))
    (p : NodePtr) (n : Node K V) : MapM K V (List (Option NodePtr)) := do
  let newIdx := (T.hash n.data.1 % count).toNat
  let h ← readBucket newBuckets newIdx
  writeNode p { n with next := h }
  return newBuckets.set newIdx (some p)

def rehash (A : Allocator) (T : KeyTraits K) (m : ℕ) (count : BitVec 64) : MapM K V Unit := do
  let count := if count = 0 then kDefaultBucketCount else count
  let empty ← newBuckets A count
  let um ← getMap m
  let filled ← um.buckets.foldlM (fun acc h => foldChain (relink T count) um.fuel acc h) empty
  setMap m (some { um with buckets := filled, bucketCount := count })

def reserve (A : Allocator) (T : KeyTraits K) (m : ℕ) (count : BitVec 64) : MapM K V Unit := do
  let um ← getMap m
  let requiredBuckets := count / kMaxLoadFactor + 1
  if um.bucketCount < requiredBuckets then
    rehash A T m requiredBuckets

def clear (m : ℕ) : MapM K V Unit := do
  let um ← getMap m
  let emptied ← um.buckets.mapM fun h => do
    foldChain (fun _ p _ => deleteNode p) um.fuel () h
    return none
  setMap m (some { um with buckets := emptied, size := 0 })

def destroy (m : ℕ) : MapM K V Unit := do
  clear m
  let um ← getMap m
  setMap m (some { um with buckets := [], bucketCount := 0 })

def insert (A : Allocator) (T : KeyTraits K) (m : ℕ) (value : K × V) :
    MapM K V (Iter × Bool) := do
  let um ← getMap m
  let bucketIdx ← bucketIndex T um value.1
  let h ← readBucket um.buckets bucketIdx
  match ← searchChain T value.1 um.fuel h with
  | some p => return (⟨bucketIdx, some p⟩, false)
  | none =>
    let p ← newNode A ⟨value, h⟩
    let um := { um with buckets := um.buckets.set bucketIdx (some p), size := um.size + 1 }
    setMap m (some um)
    if um.bucketCount * kMaxLoadFactor < um.size then
      rehash A T m (um.bucketCount * 2)
      let um ← getMap m
      let bucketIdx ← bucketIndex T um value.1
      let h ← readBucket um.buckets bucketIdx
      match ← searchChain T value.1 um.fuel h with
      | some q => return (⟨bucketIdx, some q⟩, true)
      | none => return (⟨bucketIdx, some p⟩, true)
    else
      return (⟨bucketIdx, some p⟩, true)

def emplace (A : Allocator) (T : KeyTraits K) (m : ℕ) (key : K) (value : V) :
    MapM K V (Iter × Bool) :=
  insert A T m (key, value)

def eraseChain (T : KeyTraits K) (m : ℕ) (um : UMap) (bucketIdx : ℕ) (key : K) :
    ℕ → Option NodePtr → Option NodePtr → MapM K V ℕ
  | 0, _, _ => throw .diverges
  | _ + 1, _, none => return 0
  | fuel + 1, prev, some p => do
    let n ← readNode p
    if T.keyEqual n.data.1 key then
      let mut buckets := um.buckets
      match prev with
      | none => buckets := buckets.set bucketIdx n.next
      | some q =>
        let before ← readNode q
        writeNode q { before with next := n.next }
      deleteNode p
      setMap m (some { um with buckets := buckets, size := um.size - 1 })
      return 1
    else
      eraseChain T m um bucketIdx key fuel (some p) n.next

def erase (T : KeyTraits K) (m : ℕ) (key : K) : MapM K V ℕ := do
  let um ← getMap m
  let bucketIdx ← bucketIndex T um key
  let h ← readBucket um.buckets bucketIdx
  eraseChain T m um bucketIdx key um.fuel none h

/-- The bucket `advance_to_next_bucket` stops at, over the rest of the array. -/
def firstFilled : List (Option NodePtr) → ℕ → Iter
  | [], i => ⟨i, none⟩
  | none :: rest, i => firstFilled rest (i + 1)
  | some p :: _, i => ⟨i, some p⟩

def UMap.advanceToNextBucket (um : UMap) (bucketIdx : ℕ) : Iter :=
  firstFilled (um.buckets.drop bucketIdx) bucketIdx

def UMap.begin (um : UMap) : Iter := um.advanceToNextBucket 0

def UMap.end (um : UMap) : Iter := um.advanceToNextBucket um.bucketCount.toNat

/-- The operator `++` of the iterator. -/
def Iter.next (um : UMap) (it : Iter) : MapM K V Iter := do
  match it.node with
  | none => return it
  | some p =>
    match (← readNode p).next with
    | some q => return { it with node := some q }
    | none => return um.advanceToNextBucket (it.bucketIdx + 1)

def find (T : KeyTraits K) (m : ℕ) (key : K) : MapM K V Iter := do
  let um ← getMap m
  let bucketIdx ← bucketIndex T um key
  let h ← readBucket um.buckets bucketIdx
  match ← searchChain T key um.fuel h with
  | some p => return ⟨bucketIdx, some p⟩
  | none => return um.end

/-- Iterators are compared by their nodes. -/
def contains (T : KeyTraits K) (m : ℕ) (key : K) : MapM K V Bool := do
  let it ← find T m key
  return it.node ≠ (← getMap m).end.node

def count (T : KeyTraits K) (m : ℕ) (key : K) : MapM K V ℕ := do
  let it ← find T m key
  return if it.node ≠ (← getMap m).end.node then 1 else 0

def Iter.deref (it : Iter) : MapM K V NodePtr :=
  match it.node with
  | some p => return p
  | none => throw .deadNode

/-- The operator `[]`: the node whose value is referred to. -/
def index [Inhabited V] (A : Allocator) (T : KeyTraits K) (m : ℕ) (key : K) :
    MapM K V NodePtr := do
  let it ← find T m key
  if it.node ≠ (← getMap m).end.node then
    it.deref
  else
    let result ← insert A T m (key, default)
    result.1.deref

def insertChain (A : Allocator) (T : KeyTraits K) (m : ℕ) : ℕ → Option NodePtr → MapM K V Unit
  | 0, _ => throw .diverges
  | _ + 1, none => return
  | fuel + 1, some p => do
    let n ← readNode p
    let _ ← insert A T m n.data
    insertChain A T m fuel (← readNode p).next

/-- The part that the copy constructor and the copy assignment share. -/
def insertAll (A : Allocator) (T : KeyTraits K) (m : ℕ) (other : UMap) : MapM K V Unit := do
  rehash A T m other.bucketCount
  other.buckets.forM fun h => insertChain A T m other.fuel h

def construct (A : Allocator) (T : KeyTraits K) (m : ℕ) (bucketCount : BitVec 64) :
    MapM K V Unit := do
  setMap m (some .unset)
  rehash A T m bucketCount

def copyConstruct (A : Allocator) (T : KeyTraits K) (m other : ℕ) : MapM K V Unit := do
  let other ← getMap other
  setMap m (some .unset)
  insertAll A T m other

def copyAssign (A : Allocator) (T : KeyTraits K) (m other : ℕ) : MapM K V Unit := do
  if m ≠ other then
    let other ← getMap other
    destroy m
    insertAll A T m other

def destruct (m : ℕ) : MapM K V Unit := do
  destroy m
  setMap m none

/-- A loop from `begin()` to `end()`, and what it sees. -/
def visitFrom (um : UMap) : ℕ → Iter → MapM K V (List (K × V))
  | 0, _ => throw .diverges
  | fuel + 1, it =>
    match it.node with
    | none => return []
    | some p => do
      let n ← readNode p
      let rest ← visitFrom um fuel (← it.next um)
      return n.data :: rest

def visit (m : ℕ) : MapM K V (List (K × V)) := do
  let um ← getMap m
  visitFrom um um.fuel um.begin

end NaiLongKernel.Container
