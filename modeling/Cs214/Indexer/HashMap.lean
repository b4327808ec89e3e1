import Cs214.Library.Path

/-!
# The hash map of the indexer, as `hashmap.c` computes it

A hash map resolves collisions by separate chaining: `lists` is the array of the first nodes of
the chains, and `nodes` the memory of the nodes. A node owns its `map`, the pair of a key and a
value, so the address of the node stands for the pointer to its map as well. Reading the array
outside its bounds, or an address that holds no node, is a fault (`none`).

The address of a new node is an argument of `hmStore`. The loops over a chain carry a fuel
argument that starts at the number of nodes plus one.
-/

namespace Cs214.Hashmap

/-- An entry: a key with its value. -/
structure MapT (K V : Type) where
  key : K
  value : V
  deriving DecidableEq

/-- A node of a chain. -/
structure NodeT (K V : Type) where
  map : MapT K V
  next : Option ℕ

/-- The hash map with the memory of its nodes. -/
structure HashmapT (K V : Type) where
  size : ℤ
  lists : List (Option ℕ)
  hash : K → ℤ
  compare : K → K → ℤ
  nodes : Store (NodeT K V)

variable {K V : Type}

/-- `hm_create`: NULL for a size that is not positive. -/
def hmCreate (size : ℤ) (hash : K → ℤ) (compare : K → K → ℤ) : Option (HashmapT K V) :=
  if size ≤ 0 then none
  else some ⟨size, List.replicate size.toNat none, hash, compare, .empty⟩

namespace HashmapT

/-- `hm->hash(key) % hm->size`, with the remainder of C. -/
def index (hm : HashmapT K V) (key : K) : ℤ := (hm.hash key).tmod hm.size

/-- `hm->lists[index]`. -/
def list (hm : HashmapT K V) (index : ℤ) : Option (Option ℕ) :=
  if index < 0 then none else hm.lists[index.toNat]?

/-- `hm->lists[index] = p`. -/
def setList (hm : HashmapT K V) (index : ℤ) (p : Option ℕ) : HashmapT K V :=
  { hm with lists := hm.lists.set index.toNat p }

/-- Fuel for one walk along a chain. -/
def fuel (hm : HashmapT K V) : ℕ := hm.nodes.dom.card + 1

/-- Write a node. -/
def setNode (hm : HashmapT K V) (a : ℕ) (node : NodeT K V) : HashmapT K V :=
  { hm with nodes := hm.nodes.insert a node }

/-- `node_destroy`, which frees the map of the node as well. -/
def destroyNode (hm : HashmapT K V) (a : ℕ) : HashmapT K V :=
  { hm with nodes := hm.nodes.erase a }

/-- `*map->value = value` for the map of the node at `a`. -/
def setValue (hm : HashmapT K V) (a : ℕ) (value : V) : Option (HashmapT K V) := do
  let node ← hm.nodes.cell a
  some (hm.setNode a { node with map := { node.map with value := value } })

/-- The walk along a chain to the node of a key: `prev` and `node_ptr` at its end. -/
def walk (hm : HashmapT K V) (key : K) : ℕ → Option ℕ → Option ℕ → Option (Option ℕ × Option ℕ)
  | 0, _, _ => none
  | _ + 1, prev, none => some (prev, none)
  | n + 1, prev, some nodePtr => do
    let node ← hm.nodes.cell nodePtr
    if hm.compare node.map.key key ≠ 0 then walk hm key n (some nodePtr) node.next
    else some (prev, some nodePtr)

end HashmapT

/-- `hm_store`, with the address of the node it may create. -/
def hmStore (hm : HashmapT K V) (key : K) (value : V) (addr : ℕ) : Option (HashmapT K V × ℤ) := do
  let index := hm.index key
  match ← hm.list index with
  | none => some ((hm.setNode addr ⟨⟨key, value⟩, none⟩).setList index (some addr), 1)
  | some first => do
    match ← hm.walk key hm.fuel none (some first) with
    | (_, some _) => some (hm, 0)
    | (none, none) => none
    | (some prev, none) => do
      let hm := hm.setNode addr ⟨⟨key, value⟩, none⟩
      let node ← hm.nodes.cell prev
      some (hm.setNode prev { node with next := some addr }, 1)

/-- `hm_get`: the node of the map, if any. -/
def hmGet (hm : HashmapT K V) (key : K) : Option (Option ℕ) := do
  let (_, nodePtr) ← hm.walk key hm.fuel none (← hm.list (hm.index key))
  some nodePtr

/-- `hm_remove`: the value of the entry it removes, if any. Behind the first node of a list the
source writes the next node to its own variable `prev`, which unlinks nothing. -/
def hmRemove (hm : HashmapT K V) (key : K) : Option (HashmapT K V × Option V) := do
  let index := hm.index key
  match ← hm.list index with
  | none => some (hm, none)
  | some first => do
    match ← hm.walk key hm.fuel none (some first) with
    | (_, none) => some (hm, none)
    | (prev, some nodePtr) => do
      let node ← hm.nodes.cell nodePtr
      let hm := match prev with
        | none => hm.setList index node.next
        | some _ => hm
      some (hm.destroyNode nodePtr, some node.map.value)

/-! ### The iterator -/

/-- An iterator of a hash map. -/
structure HmIteratorT where
  indexNo : ℤ
  currentNode : Option ℕ

/-- `hm_create_iterator`. -/
def hmCreateIterator : HmIteratorT := ⟨-1, none⟩

/-- `hmi_get`: the map of the current node, after a step to the next list that has a node if
there is no current one. -/
def hmiGet (hm : HashmapT K V) : ℕ → HmIteratorT → Option (HmIteratorT × Option ℕ)
  | 0, _ => none
  | n + 1, hmi =>
    match hmi.currentNode with
    | none =>
      if hmi.indexNo = hm.size - 1 then some (hmi, none)
      else do
        let indexNo := hmi.indexNo + 1
        let currentNode ← hm.list indexNo
        hmiGet hm n ⟨indexNo, currentNode⟩
    | some a => some (hmi, some a)

/-- `hmi_get_next`. Each call of `hmi_get` in it enters the next list. -/
def hmiGetNext (hm : HashmapT K V) (hmi : HmIteratorT) : Option (HmIteratorT × Option ℕ) :=
  match hmi.currentNode with
  | none =>
    if hmi.indexNo = hm.size - 1 then some (hmi, none)
    else hmiGet hm (hm.lists.length + 1) hmi
  | some a => do
    let node ← hm.nodes.cell a
    hmiGet hm (hm.lists.length + 1) { hmi with currentNode := node.next }

/-! ### What a hash map holds -/

namespace HashmapT

/-- The nodes of a chain. -/
def chain (hm : HashmapT K V) (head : Option ℕ) : List ℕ := hm.nodes.trail NodeT.next head

/-- The nodes of all chains. -/
def addresses (hm : HashmapT K V) : List ℕ := (hm.lists.map hm.chain).flatten

/-- The map of the node at `a`. -/
def map (hm : HashmapT K V) (a : ℕ) : Option (MapT K V) := (hm.nodes.cell a).map NodeT.map

/-- The entries. -/
def entries (hm : HashmapT K V) : List (MapT K V) := hm.addresses.filterMap hm.map

end HashmapT

end Cs214.Hashmap
