import Mathlib.Algebra.Group.Nat.Defs
import Mathlib.Data.Nat.Log
import SaeOS.Lib.FiniteMap

/-!
# Hash tables

`OpenAddressMap` (linear probing with tombstones, `collections/map/open_address.rs`), `ChainedMap`
(a list per bucket, `collections/map/chained.rs`) and `HashSet` (`collections/set.rs`), for any hash
function. A probe loop has a bound on its rounds, one for each bucket; `none` means that it would go on.
-/

namespace SaeOS.Collections

/-- `INITIAL_CAPACITY`. -/
def initialCapacity : ℕ := 16

/-- `MAX_LOAD_FACTOR_PERCENT`. -/
def maxLoadFactorPercent : ℕ := 70

/-- `next_power_of_two`. -/
def nextPowerOfTwo (n : ℕ) : ℕ :=
  2 ^ Nat.clog 2 n

inductive Bucket (K V : Type)
  | empty
  | occupied (key : K) (value : V)
  | tombstone
  deriving DecidableEq

/-- The entry of a bucket. -/
def Bucket.entry {K V : Type} : Bucket K V → Option (K × V)
  | .occupied k v => some (k, v)
  | _ => none

structure OpenAddressMap (K V : Type) where
  buckets : List (Bucket K V)
  len : ℕ := 0
  /-- Includes tombstones. -/
  occupiedCount : ℕ := 0

namespace OpenAddressMap

variable {K V : Type}

/-- `with_capacity_and_hasher`. -/
def withCapacity (capacity : ℕ) : OpenAddressMap K V where
  buckets := List.replicate (nextPowerOfTwo (max capacity 4)) .empty

/-- The bucket at an index. -/
def bucketAt (buckets : List (Bucket K V)) (idx : ℕ) : Bucket K V :=
  buckets.getD idx .empty

/-- The loop of `resize` that looks for a bucket that is not occupied. -/
def freeBucket (buckets : List (Bucket K V)) : ℕ → ℕ → Option ℕ
  | 0, _ => none
  | rounds + 1, idx =>
    match bucketAt buckets idx with
    | .occupied _ _ => freeBucket buckets rounds ((idx + 1) &&& (buckets.length - 1))
    | _ => some idx

def iter (t : OpenAddressMap K V) : List (K × V) :=
  t.buckets.filterMap Bucket.entry

def clear (t : OpenAddressMap K V) : OpenAddressMap K V where
  buckets := t.buckets.map fun _ => .empty

/-- Move the old buckets into new ones. -/
def rehash (hash : K → ℕ) (buckets : List (Bucket K V)) (count : ℕ) :
    List (Bucket K V) → Option (List (Bucket K V) × ℕ)
  | [] => some (buckets, count)
  | .occupied key value :: rest => do
    let idx ← freeBucket buckets buckets.length (hash key &&& (buckets.length - 1))
    rehash hash (buckets.set idx (.occupied key value)) (count + 1) rest
  | _ :: rest => rehash hash buckets count rest

def resize (hash : K → ℕ) (t : OpenAddressMap K V) : Option (OpenAddressMap K V) := do
  let (buckets, occupiedCount) ← rehash hash
    (List.replicate (max (t.buckets.length * 2) initialCapacity) .empty) 0 t.buckets
  return { t with buckets, occupiedCount }

section Keyed

variable [DecidableEq K]

/-- The loop of `get`, `get_mut` and `remove`: where the key is and its value, or none at an empty
bucket. -/
def find (buckets : List (Bucket K V)) (key : K) : ℕ → ℕ → Option (Option (ℕ × V))
  | 0, _ => none
  | rounds + 1, idx =>
    match bucketAt buckets idx with
    | .empty => some none
    | .occupied k v =>
      if k = key then some (some (idx, v))
      else find buckets key rounds ((idx + 1) &&& (buckets.length - 1))
    | .tombstone => find buckets key rounds ((idx + 1) &&& (buckets.length - 1))

/-- The loop of `insert`. -/
def insertLoop (t : OpenAddressMap K V) (key : K) (value : V) :
    ℕ → ℕ → Option ℕ → Option (Option V × OpenAddressMap K V)
  | 0, _, _ => none
  | rounds + 1, idx, firstTombstone =>
    match bucketAt t.buckets idx with
    | .empty => some (none, { t with
        buckets := t.buckets.set (firstTombstone.getD idx) (.occupied key value)
        occupiedCount := if firstTombstone.isNone then t.occupiedCount + 1 else t.occupiedCount
        len := t.len + 1 })
    | .tombstone => insertLoop t key value rounds ((idx + 1) &&& (t.buckets.length - 1))
        (if firstTombstone.isNone then some idx else firstTombstone)
    | .occupied k v =>
      if k = key then some (some v, { t with buckets := t.buckets.set idx (.occupied k value) })
      else insertLoop t key value rounds ((idx + 1) &&& (t.buckets.length - 1)) firstTombstone

section Hashed

variable (hash : K → ℕ)

def insert (t : OpenAddressMap K V) (key : K) (value : V) :
    Option (Option V × OpenAddressMap K V) := do
  let t ← if (t.occupiedCount + 1) * 100 / t.buckets.length ≥ maxLoadFactorPercent then t.resize hash
    else some t
  t.insertLoop key value t.buckets.length (hash key &&& (t.buckets.length - 1)) none

/-- `find` from the key's own bucket. -/
def lookup (t : OpenAddressMap K V) (key : K) : Option (Option (ℕ × V)) :=
  find t.buckets key t.buckets.length (hash key &&& (t.buckets.length - 1))

def get (t : OpenAddressMap K V) (key : K) : Option (Option V) := do
  let found ← t.lookup hash key
  return found.map Prod.snd

/-- `get_mut`, with what the caller does to the value. -/
def getMut (t : OpenAddressMap K V) (key : K) (update : V → V) :
    Option (Option V × OpenAddressMap K V) := do
  match ← t.lookup hash key with
  | none => return (none, t)
  | some (idx, v) =>
    return (some v, { t with buckets := t.buckets.set idx (.occupied key (update v)) })

def remove (t : OpenAddressMap K V) (key : K) : Option (Option V × OpenAddressMap K V) := do
  match ← t.lookup hash key with
  | none => return (none, t)
  | some (idx, v) =>
    return (some v, { t with buckets := t.buckets.set idx .tombstone, len := t.len - 1 })

end Hashed

/-- An operation of the `Map` interface. -/
def step (hash : K → ℕ) (t : OpenAddressMap K V) :
    FiniteMap.Op K V → Option (FiniteMap.Result K V × OpenAddressMap K V)
  | .insert key value => (t.insert hash key value).map fun (v, t) => (.value v, t)
  | .get key => (t.get hash key).map fun v => (.value v, t)
  | .getMut key update => (t.getMut hash key update).map fun (v, t) => (.value v, t)
  | .remove key => (t.remove hash key).map fun (v, t) => (.value v, t)
  | .containsKey key => (t.get hash key).map fun v => (.flag v.isSome, t)
  | .iter => some (.entries t.iter, t)
  | .len => some (.count t.len, t)
  | .clear => some (.unit, t.clear)

end Keyed

end OpenAddressMap

/-! ## Chained buckets -/

/-- The nodes of a bucket. -/
abbrev Chain (K V : Type) : Type :=
  List (K × V)

namespace Chain

variable {K V : Type} [DecidableEq K]

/-- The value of a key. -/
def get (key : K) : Chain K V → Option V
  | [] => none
  | node :: next => if node.1 = key then some node.2 else get key next

/-- Update the value in the key's node; the old value with the chain, or none if there is no node. -/
def modify (key : K) (update : V → V) : Chain K V → Option (V × Chain K V)
  | [] => none
  | node :: next =>
    if node.1 = key then some (node.2, (node.1, update node.2) :: next)
    else (modify key update next).map fun (old, next) => (old, node :: next)

/-- Unlink the key's node. -/
def remove (key : K) : Chain K V → Option (V × Chain K V)
  | [] => none
  | node :: next =>
    if node.1 = key then some (node.2, next)
    else (remove key next).map fun (old, next) => (old, node :: next)

end Chain

structure ChainedMap (K V : Type) where
  buckets : List (Chain K V)
  len : ℕ := 0

namespace ChainedMap

variable {K V : Type}

/-- `with_buckets_and_hasher`. -/
def withBuckets (numBuckets : ℕ) : ChainedMap K V where
  buckets := List.replicate (nextPowerOfTwo (max numBuckets 4)) []

def iter (t : ChainedMap K V) : List (K × V) :=
  t.buckets.flatten

def clear (t : ChainedMap K V) : ChainedMap K V where
  buckets := t.buckets.map fun _ => []

section Hashed

variable (hash : K → ℕ)

/-- `hash_key`. -/
def hashKey (t : ChainedMap K V) (key : K) : ℕ :=
  hash key &&& (t.buckets.length - 1)

/-- The bucket of a key. -/
def chain (t : ChainedMap K V) (key : K) : Chain K V :=
  t.buckets.getD (t.hashKey hash key) []

variable [DecidableEq K]

def insert (t : ChainedMap K V) (key : K) (value : V) : Option V × ChainedMap K V :=
  match (t.chain hash key).modify key fun _ => value with
  | some (old, chain) => (some old, { t with buckets := t.buckets.set (t.hashKey hash key) chain })
  | none => (none, { t with
      buckets := t.buckets.set (t.hashKey hash key) ((key, value) :: t.chain hash key)
      len := t.len + 1 })

def get (t : ChainedMap K V) (key : K) : Option V :=
  (t.chain hash key).get key

/-- `get_mut`, with what the caller does to the value. -/
def getMut (t : ChainedMap K V) (key : K) (update : V → V) : Option V × ChainedMap K V :=
  match (t.chain hash key).modify key update with
  | none => (none, t)
  | some (old, chain) => (some old, { t with buckets := t.buckets.set (t.hashKey hash key) chain })

def remove (t : ChainedMap K V) (key : K) : Option V × ChainedMap K V :=
  match (t.chain hash key).remove key with
  | none => (none, t)
  | some (old, chain) =>
    (some old, { buckets := t.buckets.set (t.hashKey hash key) chain, len := t.len - 1 })

end Hashed

/-- An operation of the `Map` interface. -/
def step [DecidableEq K] (hash : K → ℕ) (t : ChainedMap K V) :
    FiniteMap.Op K V → Option (FiniteMap.Result K V × ChainedMap K V)
  | .insert key value => let (v, t) := t.insert hash key value; some (.value v, t)
  | .get key => some (.value (t.get hash key), t)
  | .getMut key update => let (v, t) := t.getMut hash key update; some (.value v, t)
  | .remove key => let (v, t) := t.remove hash key; some (.value v, t)
  | .containsKey key => some (.flag (t.get hash key).isSome, t)
  | .iter => some (.entries t.iter, t)
  | .len => some (.count t.len, t)
  | .clear => some (.unit, t.clear)

end ChainedMap

/-! ## Sets -/

/-- `HashSet`: a map from its values to nothing. -/
abbrev HashSet (T : Type) : Type :=
  OpenAddressMap T Unit

/-- An operation of the `Set` interface. -/
def HashSet.step {T : Type} [DecidableEq T] (hash : T → ℕ) (t : HashSet T) :
    FiniteSet.Op T → Option (FiniteSet.Result T × HashSet T)
  | .insert value => (OpenAddressMap.insert hash t value ()).map fun (v, t) => (.flag v.isNone, t)
  | .contains value => (OpenAddressMap.get hash t value).map fun v => (.flag v.isSome, t)
  | .remove value => (OpenAddressMap.remove hash t value).map fun (v, t) => (.flag v.isSome, t)
  | .iter => some (.values ((OpenAddressMap.iter t).map Prod.fst), t)
  | .len => some (.count (OpenAddressMap.len t), t)
  | .clear => some (.unit, OpenAddressMap.clear t)

end SaeOS.Collections
