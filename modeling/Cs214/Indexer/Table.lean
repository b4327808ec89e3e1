import Cs214.Indexer.HashMap

/-!
# The array of the hash map

`hm_create` allocates as many lists as the size says, and no call changes the size, the functions
or the number of lists (`Made.table`). Each call for a key selects a list by the remainder of its
hash, and a negative remainder is outside of the array (`Made.inBounds_iff`).
-/

namespace Cs214.Hashmap

variable {K V : Type} {hm hm' hm'' : HashmapT K V} {key : K} {value : V} {addr a : ℕ}
  {old : Option V} {result size : ℤ} {hash : K → ℤ} {compare : K → K → ℤ}

/-! ### What no call changes -/

/-- **The same array**, with the same functions. -/
structure SameTable (hm hm' : HashmapT K V) : Prop where
  size : hm'.size = hm.size
  hash : hm'.hash = hm.hash
  compare : hm'.compare = hm.compare
  lists : hm'.lists.length = hm.lists.length

namespace SameTable

private theorem refl (hm : HashmapT K V) : SameTable hm hm := ⟨rfl, rfl, rfl, rfl⟩

private theorem trans (h : SameTable hm hm') (h' : SameTable hm' hm'') : SameTable hm hm'' where
  size := h'.size.trans h.size
  hash := h'.hash.trans h.hash
  compare := h'.compare.trans h.compare
  lists := h'.lists.trans h.lists

/-- A node is on the heap, outside the array. -/
private theorem setNode (hm : HashmapT K V) (a : ℕ) (node : NodeT K V) :
    SameTable hm (hm.setNode a node) :=
  ⟨rfl, rfl, rfl, rfl⟩

/-- A list of the array is replaced, and the array keeps its length. -/
private theorem setList (hm : HashmapT K V) (index : ℤ) (p : Option ℕ) :
    SameTable hm (hm.setList index p) :=
  ⟨rfl, rfl, rfl, List.length_set⟩

private theorem destroyNode (hm : HashmapT K V) (a : ℕ) : SameTable hm (hm.destroyNode a) :=
  ⟨rfl, rfl, rfl, rfl⟩

private theorem setValue (h : hm.setValue a value = some hm') : SameTable hm hm' := by
  obtain ⟨node, -, heq⟩ := Option.bind_eq_some_iff.mp h
  obtain rfl := Option.some.inj heq
  exact .setNode hm a _

/-- A store of a key keeps the table. -/
private theorem store (h : hmStore hm key value addr = some (hm', result)) : SameTable hm hm' := by
  obtain ⟨p, -, h⟩ := Option.bind_eq_some_iff.mp h
  cases p with
  | none =>
    -- the first node of a list
    obtain ⟨rfl, -⟩ := Prod.mk.inj (Option.some.inj h)
    exact (setNode hm addr _).trans (setList _ _ _)
  | some first =>
    obtain ⟨⟨prev, nodePtr⟩, -, h⟩ := Option.bind_eq_some_iff.mp h
    rcases nodePtr with _ | nodePtr
    · rcases prev with _ | prev
      · cases h
      · -- behind the last node of a list
        obtain ⟨node, -, h⟩ := Option.bind_eq_some_iff.mp h
        obtain ⟨rfl, -⟩ := Prod.mk.inj (Option.some.inj h)
        exact (setNode hm addr _).trans (setNode _ _ _)
    · obtain ⟨rfl, -⟩ := Prod.mk.inj (Option.some.inj h)
      exact refl hm

/-- So does a removal. -/
theorem remove (h : hmRemove hm key = some (hm', old)) : SameTable hm hm' := by
  obtain ⟨p, -, h⟩ := Option.bind_eq_some_iff.mp h
  cases p with
  | none =>
    obtain ⟨rfl, -⟩ := Prod.mk.inj (Option.some.inj h)
    exact refl hm
  | some first =>
    obtain ⟨⟨prev, nodePtr⟩, -, h⟩ := Option.bind_eq_some_iff.mp h
    rcases nodePtr with _ | nodePtr
    · obtain ⟨rfl, -⟩ := Prod.mk.inj (Option.some.inj h)
      exact refl hm
    · obtain ⟨node, -, h⟩ := Option.bind_eq_some_iff.mp h
      obtain ⟨rfl, -⟩ := Prod.mk.inj (Option.some.inj h)
      rcases prev with _ | prev
      · exact (setList hm _ _).trans (destroyNode _ _)
      · exact destroyNode hm _

end SameTable

/-- **The hash maps of `hm_create`**, behind any calls that store, remove or set a value. -/
inductive Made (size : ℤ) (hash : K → ℤ) (compare : K → K → ℤ) : HashmapT K V → Prop
  | create {hm : HashmapT K V} (h : hmCreate size hash compare = some hm) :
      Made size hash compare hm
  | store {hm hm' : HashmapT K V} {key : K} {value : V} {addr : ℕ} {result : ℤ}
      (hmade : Made size hash compare hm)
      (h : hmStore hm key value addr = some (hm', result)) : Made size hash compare hm'
  | remove {hm hm' : HashmapT K V} {key : K} {old : Option V}
      (hmade : Made size hash compare hm) (h : hmRemove hm key = some (hm', old)) :
      Made size hash compare hm'
  | setValue {hm hm' : HashmapT K V} {a : ℕ} {value : V} (hmade : Made size hash compare hm)
      (h : hm.setValue a value = some hm') : Made size hash compare hm'

/-- The array as `hm_create` makes it. -/
structure Table (size : ℤ) (hash : K → ℤ) (compare : K → K → ℤ) (hm : HashmapT K V) : Prop where
  pos : 0 < size
  lists : hm.lists.length = size.toNat
  size : hm.size = size
  hash : hm.hash = hash
  compare : hm.compare = compare

/-- What is true of the table of a map is true of one with the same table. -/
private theorem SameTable.table (h : SameTable hm hm') (ht : Table size hash compare hm) :
    Table size hash compare hm' :=
  ⟨ht.pos, h.lists.trans ht.lists, h.size.trans ht.size, h.hash.trans ht.hash,
    h.compare.trans ht.compare⟩

private theorem Made.table (h : Made size hash compare hm) : Table size hash compare hm := by
  induction h with
  | create h =>
    rw [hmCreate] at h
    split_ifs at h with hsize
    obtain rfl := Option.some.inj h
    exact ⟨not_le.mp hsize, List.length_replicate, rfl, rfl, rfl⟩
  | store _ h ih => exact (SameTable.store h).table ih
  | remove _ h ih => exact (SameTable.remove h).table ih
  | setValue _ h ih => exact (SameTable.setValue h).table ih

/-! ### The access to the array -/

/-- **The index of a key** is that of a list. -/
structure InBounds (hm : HashmapT K V) (key : K) : Prop where
  nonneg : 0 ≤ hm.index key
  lt : hm.index key < hm.size
  access : (hm.list (hm.index key)).isSome

/-- The remainder of a division by the size is less than that. -/
theorem Made.inBounds_iff (h : Made size hash compare hm) (key : K) :
    InBounds hm key ↔ 0 ≤ (hash key).tmod size := by
  have ht := h.table
  have hindex : hm.index key = (hash key).tmod size := by
    rw [HashmapT.index, ht.hash, ht.size]
  have hlt : (hash key).tmod size < size := Int.tmod_lt_of_pos _ ht.pos
  constructor
  · intro hkey
    rw [← hindex]
    exact hkey.nonneg
  · intro hnn
    refine ⟨hindex ▸ hnn, by rwa [hindex, ht.size], ?_⟩
    have hlists : (hm.index key).toNat < hm.lists.length := by
      rw [hindex, ht.lists]
      omega
    rw [HashmapT.list, if_neg (by omega), List.getElem?_eq_getElem hlists]
    rfl

end Cs214.Hashmap
