import Cs214.Indexer.HashMap

/-!
# The hash map is a finite map

`Valid hm` says that every chain ends, that a node is in the chain its key hashes to, and that
no two nodes have equal keys. For a comparison that is an equivalence under which the hash does
not vary (`Hashing`) the functions then are those of a finite map: `hmGet_spec` finds the node
of an equal key if there is one, wherever in the map it is, `hmStore_spec` adds an entry or
finds an equal one, and repeated calls of `hmiGetNext` on a fresh iterator visit the nodes of
all chains once each (`hmiGetNext_spec`).
-/

namespace Cs214.Hashmap

variable {K V : Type} {hm hm' : HashmapT K V} {key k : K} {a b addr n i j : ℕ}
  {p prev head : Option ℕ} {node m : NodeT K V} {l l₁ l₂ : List ℕ} {hmi : HmIteratorT}
  {e : MapT K V} {s : Store (NodeT K V)}

/-- **Keys**: equality of keys is an equivalence, and equal keys have equal hashes. -/
structure Hashing (hash : K → ℤ) (compare : K → K → ℤ) : Prop where
  refl : ∀ k, compare k k = 0
  symm : ∀ k k', compare k k' = 0 → compare k' k = 0
  trans : ∀ k k' k'', compare k k' = 0 → compare k' k'' = 0 → compare k k'' = 0
  hash : ∀ k k', compare k k' = 0 → hash k = hash k'

/-- **The invariant of a hash map.** -/
structure Valid (hm : HashmapT K V) : Prop where
  pos : 0 < hm.size
  length : (hm.lists.length : ℤ) = hm.size
  path : ∀ head ∈ hm.lists, hm.nodes.Path NodeT.next none head (hm.chain head)
  home : ∀ (i : ℕ) head, hm.lists[i]? = some head → ∀ a ∈ hm.chain head, ∀ node,
    hm.nodes.cell a = some node → hm.index node.map.key = i
  distinct : ∀ a ∈ hm.addresses, ∀ b ∈ hm.addresses, ∀ m n, hm.nodes.cell a = some m →
    hm.nodes.cell b = some n → hm.compare m.map.key n.map.key = 0 → a = b

/-! ### Addresses and entries -/

theorem HashmapT.mem_addresses :
    a ∈ hm.addresses ↔
      ∃ (i : ℕ) (head : Option ℕ), hm.lists[i]? = some head ∧ a ∈ hm.chain head := by
  simp only [HashmapT.addresses, List.mem_flatten, List.mem_map]
  constructor
  · rintro ⟨_, ⟨head, hhead, rfl⟩, ha⟩
    obtain ⟨i, hi⟩ := List.getElem?_of_mem hhead
    exact ⟨i, head, hi, ha⟩
  · rintro ⟨i, head, hi, ha⟩
    exact ⟨_, ⟨head, List.mem_of_getElem? hi, rfl⟩, ha⟩

theorem HashmapT.mem_entries :
    e ∈ hm.entries ↔ ∃ a ∈ hm.addresses, ∃ node, hm.nodes.cell a = some node ∧ node.map = e := by
  simp [HashmapT.entries, HashmapT.map, List.mem_filterMap, Option.map_eq_some_iff]

/-- The hash map `hm_create` makes is valid and holds no entry. -/
theorem hmCreate_spec {size : ℤ} (hsize : 0 < size) (hash : K → ℤ) (compare : K → K → ℤ) :
    ∃ hm : HashmapT K V, hmCreate size hash compare = some hm ∧ Valid hm ∧ hm.entries = [] ∧
      hm.size = size ∧ hm.hash = hash ∧ hm.compare = compare := by
  have hchain : ∀ head ∈ List.replicate size.toNat (none : Option ℕ),
      (Store.empty : Store (NodeT K V)).trail NodeT.next head = [] := by
    intro head hhead
    rw [List.eq_of_mem_replicate hhead]
    rfl
  refine ⟨_, if_neg (not_le.mpr hsize), ⟨hsize, ?_, fun head hhead => ?_, ?_, ?_⟩, ?_,
    rfl, rfl, rfl⟩
  · simp [hsize.le]
  · rw [HashmapT.chain, hchain head hhead, List.eq_of_mem_replicate hhead]
    exact .nil
  · intro i head hi a ha
    rw [HashmapT.chain, hchain head (List.mem_of_getElem? hi)] at ha
    cases ha
  · rintro a - b - m n hm
    cases hm
  · refine List.eq_nil_iff_forall_not_mem.mpr fun e he => ?_
    obtain ⟨a, -, node, hnode, -⟩ := HashmapT.mem_entries.mp he
    cases hnode

namespace Valid

/-- The index of a key is in bounds when it is not negative. -/
theorem exists_list (h : Valid hm) (hkey : 0 ≤ hm.index key) :
    ∃ (i : ℕ) (head : Option ℕ), hm.index key = i ∧ hm.lists[i]? = some head ∧
      hm.list (hm.index key) = some head := by
  have hlt : hm.index key < hm.size := Int.tmod_lt_of_pos _ h.pos
  have hlen := h.length
  have hi : (hm.index key).toNat < hm.lists.length := by omega
  refine ⟨(hm.index key).toNat, hm.lists[(hm.index key).toNat], by omega,
    List.getElem?_eq_getElem hi, ?_⟩
  rw [HashmapT.list, if_neg (by omega), List.getElem?_eq_getElem hi]

theorem exists_cell (h : Valid hm) (ha : a ∈ hm.addresses) :
    ∃ node, hm.nodes.cell a = some node := by
  obtain ⟨i, head, hi, ha⟩ := HashmapT.mem_addresses.mp ha
  exact (h.path head (List.mem_of_getElem? hi)).exists_cell ha

/-- A chain is what leads from its head to the null pointer. -/
theorem chain_eq (hp : hm.nodes.Path NodeT.next none head l) : hm.chain head = l := hp.trail_eq

/-- An entry is in the chain of every key equal to its own. -/
theorem mem_chain (h : Valid hm) (hh : Hashing hm.hash hm.compare) (ha : a ∈ hm.addresses)
    (hnode : hm.nodes.cell a = some node) (heq : hm.compare node.map.key key = 0)
    (hi : hm.index key = i) (hhead : hm.lists[i]? = some head) : a ∈ hm.chain head := by
  obtain ⟨j, head', hj, ha⟩ := HashmapT.mem_addresses.mp ha
  have hij : (j : ℤ) = i := by
    rw [← hi, ← h.home j head' hj a ha node hnode, HashmapT.index, HashmapT.index,
      hh.hash _ _ heq]
  rw [Int.ofNat_inj] at hij
  obtain rfl := Option.some.inj ((hij ▸ hj).symm.trans hhead)
  exact ha

/-- **No node is in two places**: its key tells its list, and a chain has no repetition. -/
theorem addresses_nodup (h : Valid hm) : hm.addresses.Nodup := by
  rw [HashmapT.addresses, List.nodup_flatten]
  refine ⟨fun l hl => ?_, List.pairwise_iff_getElem.mpr fun i j hi hj hij a ha hb => ?_⟩
  · obtain ⟨head, hhead, rfl⟩ := List.mem_map.mp hl
    exact (h.path head hhead).nodup
  · simp only [List.length_map] at hi hj
    simp only [List.getElem_map] at ha hb
    obtain ⟨node, hnode⟩ := (h.path _ (List.getElem_mem hi)).exists_cell ha
    have h₁ := h.home i _ (List.getElem?_eq_getElem hi) a ha node hnode
    have h₂ := h.home j _ (List.getElem?_eq_getElem hj) a hb node hnode
    omega

/-- The nodes of all chains fit in the fuel. -/
theorem addresses_length_lt_fuel (h : Valid hm) : hm.addresses.length < hm.fuel := by
  refine Nat.lt_succ_of_le ?_
  rw [← List.toFinset_card_of_nodup h.addresses_nodup]
  refine Finset.card_le_card fun a ha => ?_
  obtain ⟨node, hnode⟩ := h.exists_cell (List.mem_toFinset.mp ha)
  exact Store.mem_dom_of_cell hnode

end Valid

/-! ### Walking along a chain -/

/-- **The walk** stops at the first node of the chain that has an equal key, or behind the
chain. -/
theorem walk_spec (key : K) (prev : Option ℕ) (hp : hm.nodes.Path NodeT.next none p l)
    (hn : l.length < n) :
    (hm.walk key n prev p = some (l.getLast?.or prev, none) ∧
        ∀ a ∈ l, ∀ node, hm.nodes.cell a = some node → hm.compare node.map.key key ≠ 0) ∨
      ∃ l₁ a l₂ node, hm.walk key n prev p = some (l₁.getLast?.or prev, some a) ∧
        l = l₁ ++ a :: l₂ ∧ hm.nodes.cell a = some node ∧ hm.compare node.map.key key = 0 := by
  induction n generalizing p prev l with
  | zero => exact absurd hn (Nat.not_lt_zero _)
  | succ n ih =>
    cases hp with
    | nil => exact .inl ⟨rfl, by simp⟩
    | @cons a node l hnode ht =>
      by_cases heq : hm.compare node.map.key key = 0
      · exact .inr ⟨[], a, l, node, by simp [HashmapT.walk, hnode, heq], rfl, hnode, heq⟩
      · have hstep : hm.walk key (n + 1) prev (some a) = hm.walk key n (some a) node.next := by
          simp [HashmapT.walk, hnode, heq]
        rw [hstep]
        rcases ih (some a) ht (by simpa using hn) with
          ⟨hwalk, hall⟩ | ⟨l₁, b, l₂, m, hwalk, rfl, hm', heq'⟩
        · refine .inl ⟨?_, fun b hb m hm' => ?_⟩
          · rw [hwalk, List.getLast?_cons]
            cases l.getLast? <;> rfl
          · rcases List.mem_cons.mp hb with rfl | hb
            · obtain rfl := Option.some.inj (hnode.symm.trans hm')
              exact heq
            · exact hall b hb m hm'
        · refine .inr ⟨a :: l₁, b, l₂, m, ?_, rfl, hm', heq'⟩
          rw [hwalk, List.getLast?_cons]
          cases l₁.getLast? <;> rfl

/-- The chain of a list fits in the fuel of a walk. -/
theorem Valid.chain_length_lt_fuel (h : Valid hm) (hhead : head ∈ hm.lists) :
    (hm.chain head).length < hm.fuel :=
  Nat.lt_succ_of_le ((h.path head hhead).length_le_card (h.path head hhead).nodup)

/-- **`hm_get`** finds the node of the entry with an equal key, if there is one. -/
theorem hmGet_spec (h : Valid hm) (hh : Hashing hm.hash hm.compare) (hkey : 0 ≤ hm.index key) :
    (hmGet hm key = some none ∧ ∀ e ∈ hm.entries, hm.compare e.key key ≠ 0) ∨
      ∃ a node, hmGet hm key = some (some a) ∧ a ∈ hm.addresses ∧
        hm.nodes.cell a = some node ∧ hm.compare node.map.key key = 0 := by
  obtain ⟨i, head, hi, hhead, hlist⟩ := h.exists_list hkey
  have hmem := List.mem_of_getElem? hhead
  rcases walk_spec key none (h.path head hmem) (h.chain_length_lt_fuel hmem)
    with ⟨hwalk, hall⟩ | ⟨l₁, a, l₂, node, hwalk, hchain, hnode, heq⟩
  · refine .inl ⟨by simp [hmGet, hlist, hwalk], fun e he heq => ?_⟩
    obtain ⟨a, ha, node, hnode, rfl⟩ := HashmapT.mem_entries.mp he
    exact hall a (h.mem_chain hh ha hnode heq hi hhead) node hnode heq
  · exact .inr ⟨a, node, by simp [hmGet, hlist, hwalk],
      HashmapT.mem_addresses.mpr ⟨i, head, hhead, by simp [hchain]⟩, hnode, heq⟩

/-- A negative index is a fault. -/
theorem hmGet_eq_none (hkey : hm.index key < 0) : hmGet hm key = none := by
  simp [hmGet, HashmapT.list, hkey]

/-! ### Storing an entry -/

/-- **What the two exits of `hm_store` write** that add an entry: the new node stands at the end
of the chain `head`, the list number `i`. -/
structure Appends (hm : HashmapT K V) (i : ℕ) (head : Option ℕ) (e : MapT K V) (addr : ℕ)
    (hm' : HashmapT K V) : Prop where
  cell : ∀ b, hm'.nodes.cell b = if b = addr then some ⟨e, none⟩
    else if (hm.chain head).getLast? = some b then
      (hm.nodes.cell b).map fun node => { node with next := some addr }
    else hm.nodes.cell b
  lists : hm'.lists = if head = none then hm.lists.set i (some addr) else hm.lists
  size : hm'.size = hm.size
  hash : hm'.hash = hm.hash
  compare : hm'.compare = hm.compare

namespace Appends

private theorem cell_addr (h : Appends hm i head e addr hm') :
    hm'.nodes.cell addr = some ⟨e, none⟩ := by
  rw [h.cell, if_pos rfl]

private theorem length_lists (h : Appends hm i head e addr hm') :
    hm'.lists.length = hm.lists.length := by
  rw [h.lists]
  split_ifs <;> simp

private theorem index_eq (h : Appends hm i head e addr hm') (k : K) : hm'.index k = hm.index k := by
  rw [HashmapT.index, HashmapT.index, h.hash, h.size]

/-- The other nodes keep their maps. -/
private theorem exists_cell (h : Appends hm i head e addr hm') (ha : a ≠ addr)
    (hnode : hm'.nodes.cell a = some node) :
    ∃ m, hm.nodes.cell a = some m ∧ m.map = node.map := by
  rw [h.cell a, if_neg ha] at hnode
  split_ifs at hnode
  · obtain ⟨m, hm, rfl⟩ := Option.map_eq_some_iff.mp hnode
    exact ⟨m, hm, rfl⟩
  · exact ⟨node, hnode, rfl⟩

/-- The chains after the new node has been linked. -/
private theorem path (h : Appends hm i head e addr hm') (hv : Valid hm)
    (hhead : hm.lists[i]? = some head)
    (hfresh : hm.nodes.cell addr = none) {head₁ : Option ℕ} (hj : hm.lists[j]? = some head₁) :
    ∃ head₂, hm'.lists[j]? = some head₂ ∧ hm'.nodes.Path NodeT.next none head₂
      (hm.chain head₁ ++ if j = i then [addr] else []) := by
  have hpath := hv.path head₁ (List.mem_of_getElem? hj)
  have hne : ∀ a ∈ hm.chain head₁, a ≠ addr := by
    rintro a ha rfl
    obtain ⟨node, hnode⟩ := hpath.exists_cell ha
    rw [hfresh] at hnode
    cases hnode
  have hnew := h.cell_addr
  by_cases hji : j = i
  · subst hji
    obtain rfl := Option.some.inj (hj.symm.trans hhead)
    rw [if_pos rfl]
    rcases head₁ with _ | first
    · -- the list was empty
      refine ⟨some addr, ?_, ?_⟩
      · rw [h.lists, if_pos rfl, List.getElem?_set_self (List.getElem?_eq_some_iff.mp hj).1]
      · rw [show hm.chain none = [] from Valid.chain_eq .nil]
        exact .cons hnew .nil
    · refine ⟨some first, by rw [h.lists, if_neg (by simp), hj], ?_⟩
      rcases List.eq_nil_or_concat (hm.chain (some first)) with hnil | ⟨l₀, b, hl⟩
      · rw [hnil] at hpath
        cases Store.Path.nil_iff.mp hpath
      · rw [List.concat_eq_append] at hl
        have hlast := h.cell b
        have hnd := hl ▸ hpath.nodup
        rw [hl] at hpath hne hlast ⊢
        obtain ⟨node, hp₀, hnode, -⟩ := hpath.exists_last
        rw [if_neg (hne b (by simp)), List.getLast?_concat, if_pos rfl, hnode] at hlast
        have hp₀' : hm'.nodes.Path NodeT.next (some b) (some first) l₀ := by
          refine hp₀.congr fun a ha v hv' => ⟨v, ?_, rfl⟩
          rw [h.cell a, if_neg (hne a (by simp [ha])), if_neg ?_, hv']
          rw [hl, List.getLast?_concat]
          intro hba
          obtain rfl := Option.some.inj hba
          exact (List.nodup_append.mp hnd).2.2 b ha b (by simp) rfl
        rw [List.append_assoc]
        exact hp₀'.append (.cons hlast (.cons hnew .nil))
  · -- the new node is in another list
    refine ⟨head₁, ?_, ?_⟩
    · rw [h.lists]
      split_ifs
      · rw [List.getElem?_set_ne (Ne.symm hji), hj]
      · exact hj
    · rw [if_neg hji, List.append_nil]
      refine hpath.congr fun a ha v hv' => ⟨v, ?_, rfl⟩
      rw [h.cell a, if_neg (hne a ha), if_neg ?_, hv']
      intro hlast
      have hi := hv.home i head hhead a (List.mem_of_getLast? hlast) v hv'
      rw [hv.home j head₁ hj a ha v hv', Int.ofNat_inj] at hi
      exact hji hi

/-- The chain of each list, from the chain it was. -/
private theorem exists_path (h : Appends hm i head e addr hm') (hv : Valid hm)
    (hhead : hm.lists[i]? = some head) (hfresh : hm.nodes.cell addr = none) {head₂ : Option ℕ}
    (hj : hm'.lists[j]? = some head₂) :
    ∃ head₁, hm.lists[j]? = some head₁ ∧ hm'.nodes.Path NodeT.next none head₂
      (hm.chain head₁ ++ if j = i then [addr] else []) := by
  have hlt : j < hm.lists.length := h.length_lists ▸ (List.getElem?_eq_some_iff.mp hj).1
  obtain ⟨head₂', hj', hp⟩ := h.path hv hhead hfresh (List.getElem?_eq_getElem hlt)
  obtain rfl := Option.some.inj (hj.symm.trans hj')
  exact ⟨_, List.getElem?_eq_getElem hlt, hp⟩

/-- The nodes after an entry has been added. -/
private theorem mem_addresses (h : Appends hm i head e addr hm') (hv : Valid hm)
    (hhead : hm.lists[i]? = some head) (hfresh : hm.nodes.cell addr = none) :
    a ∈ hm'.addresses ↔ a = addr ∨ a ∈ hm.addresses := by
  constructor
  · intro ha
    obtain ⟨j, head₂, hj₂, ha⟩ := HashmapT.mem_addresses.mp ha
    obtain ⟨head₁, hj₁, hp⟩ := h.exists_path hv hhead hfresh hj₂
    rw [Valid.chain_eq hp, List.mem_append] at ha
    rcases ha with ha | ha
    · exact .inr (HashmapT.mem_addresses.mpr ⟨j, _, hj₁, ha⟩)
    · split_ifs at ha
      · exact .inl (List.mem_singleton.mp ha)
      · cases ha
  · intro ha
    obtain ⟨j, head₁, hj₁, ha⟩ : ∃ (j : ℕ) (head₁ : Option ℕ), hm.lists[j]? = some head₁ ∧
        a ∈ hm.chain head₁ ++ if j = i then [addr] else [] := by
      rcases ha with rfl | ha
      · exact ⟨i, head, hhead, by simp⟩
      · obtain ⟨j, head₁, hj₁, ha⟩ := HashmapT.mem_addresses.mp ha
        exact ⟨j, head₁, hj₁, List.mem_append_left _ ha⟩
    obtain ⟨head₂, hj₂, hp⟩ := h.path hv hhead hfresh hj₁
    exact HashmapT.mem_addresses.mpr ⟨j, head₂, hj₂, by rwa [Valid.chain_eq hp]⟩

/-- A node after an entry has been added is the new one or one of the old ones, which keep
their maps. -/
private theorem node_cases (h : Appends hm i head e addr hm') (hv : Valid hm)
    (hhead : hm.lists[i]? = some head) (hfresh : hm.nodes.cell addr = none)
    (ha : a ∈ hm'.addresses) (hnode : hm'.nodes.cell a = some node) :
    (a = addr ∧ node.map = e) ∨
      a ∈ hm.addresses ∧ ∃ m, hm.nodes.cell a = some m ∧ m.map = node.map := by
  by_cases haa : a = addr
  · rw [haa, h.cell_addr] at hnode
    exact .inl ⟨haa, (congrArg NodeT.map (Option.some.inj hnode)).symm⟩
  · exact .inr ⟨((h.mem_addresses hv hhead hfresh).mp ha).resolve_left haa,
      h.exists_cell haa hnode⟩

/-- The new node is in the list its key hashes to, and the old ones are where they were. -/
private theorem home (h : Appends hm i head e addr hm') (hv : Valid hm) (hi : hm.index e.key = i)
    (hhead : hm.lists[i]? = some head) (hfresh : hm.nodes.cell addr = none) {head₂ : Option ℕ}
    (hj : hm'.lists[j]? = some head₂) (ha : a ∈ hm'.chain head₂)
    (hnode : hm'.nodes.cell a = some node) : hm'.index node.map.key = j := by
  obtain ⟨head₁, hj₁, hp⟩ := h.exists_path hv hhead hfresh hj
  rw [Valid.chain_eq hp, List.mem_append] at ha
  rw [h.index_eq]
  by_cases haa : a = addr
  · subst haa
    rw [h.cell_addr] at hnode
    obtain rfl := Option.some.inj hnode
    rcases ha with ha | ha
    · obtain ⟨m, hm₁⟩ := (hv.path head₁ (List.mem_of_getElem? hj₁)).exists_cell ha
      rw [hfresh] at hm₁
      cases hm₁
    · split_ifs at ha with hji
      · rw [hi, hji]
      · cases ha
  · obtain ⟨m, hm₁, hmap⟩ := h.exists_cell haa hnode
    rw [← hmap]
    refine hv.home j head₁ hj₁ a (ha.resolve_right fun ha => ?_) m hm₁
    split_ifs at ha
    · exact haa (List.mem_singleton.mp ha)
    · cases ha

/-- **Adding an entry** with a new key keeps the invariant. -/
theorem valid (h : Appends hm i head e addr hm') (hv : Valid hm)
    (hh : Hashing hm.hash hm.compare) (hi : hm.index e.key = i) (hhead : hm.lists[i]? = some head)
    (hfresh : hm.nodes.cell addr = none) (hnew : ∀ e' ∈ hm.entries, hm.compare e'.key e.key ≠ 0) :
    Valid hm' := by
  refine ⟨by rw [h.size]; exact hv.pos, by rw [h.length_lists, h.size]; exact hv.length,
    fun head₂ hmem => ?_, fun j head₂ hj a ha node hnode => h.home hv hi hhead hfresh hj ha hnode,
    fun a ha b hb m n hm₁ hn₁ heq => ?_⟩
  · obtain ⟨j, hj⟩ := List.getElem?_of_mem hmem
    obtain ⟨head₁, -, hp⟩ := h.exists_path hv hhead hfresh hj
    rwa [Valid.chain_eq hp]
  · -- of two nodes with equal keys none is the new one, unless both are
    rw [h.compare] at heq
    rcases h.node_cases hv hhead hfresh ha hm₁ with ⟨rfl, hm₂⟩ | ⟨ha', m', hm', hm₂⟩ <;>
      rcases h.node_cases hv hhead hfresh hb hn₁ with ⟨rfl, hn₂⟩ | ⟨hb', n', hn', hn₂⟩
    · rfl
    · refine absurd (hh.symm _ _ heq) ?_
      rw [hm₂]
      exact hnew _ (HashmapT.mem_entries.mpr ⟨b, hb', n', hn', hn₂⟩)
    · refine absurd heq ?_
      rw [hn₂]
      exact hnew _ (HashmapT.mem_entries.mpr ⟨a, ha', m', hm', hm₂⟩)
    · exact hv.distinct a ha' b hb' m' n' hm' hn' (by rwa [hm₂, hn₂])

/-- The entries after one has been added. -/
private theorem mem_entries (h : Appends hm i head e addr hm') (hv : Valid hm)
    (hhead : hm.lists[i]? = some head) (hfresh : hm.nodes.cell addr = none) (e' : MapT K V) :
    e' ∈ hm'.entries ↔ e' = e ∨ e' ∈ hm.entries := by
  simp only [HashmapT.mem_entries, h.mem_addresses hv hhead hfresh]
  constructor
  · rintro ⟨a, ha, node, hnode, rfl⟩
    rcases h.node_cases hv hhead hfresh ((h.mem_addresses hv hhead hfresh).mpr ha) hnode
      with ⟨-, hmap⟩ | ⟨ha, m, hm₁, hmap⟩
    · exact .inl hmap
    · exact .inr ⟨a, ha, m, hm₁, hmap⟩
  · rintro (rfl | ⟨a, ha, node, hnode, rfl⟩)
    · exact ⟨addr, .inl rfl, _, h.cell_addr, rfl⟩
    · have haa : a ≠ addr := by
        rintro rfl
        rw [hfresh] at hnode
        cases hnode
      refine ⟨a, .inr ha, ?_⟩
      rw [h.cell, if_neg haa, hnode]
      split_ifs
      · exact ⟨_, rfl, rfl⟩
      · exact ⟨_, rfl, rfl⟩

end Appends

/-- **What `hm_store` does** when it answers `1`: it adds the entry. -/
structure Added (hm : HashmapT K V) (e : MapT K V) (hm' : HashmapT K V) : Prop where
  valid : Valid hm'
  size : hm'.size = hm.size
  hash : hm'.hash = hm.hash
  compare : hm'.compare = hm.compare
  new : ∀ e' ∈ hm.entries, hm.compare e'.key e.key ≠ 0
  entries : ∀ e', e' ∈ hm'.entries ↔ e' = e ∨ e' ∈ hm.entries

/-- **`hm_store`** answers `0` and changes nothing when an entry has an equal key, and otherwise
adds the entry. -/
theorem hmStore_spec (h : Valid hm) (hh : Hashing hm.hash hm.compare) (hkey : 0 ≤ hm.index key)
    (hfresh : addr ∉ hm.nodes.dom) (value : V) :
    (hmStore hm key value addr = some (hm, 0) ∧ ∃ e ∈ hm.entries, hm.compare e.key key = 0) ∨
      ∃ hm', hmStore hm key value addr = some (hm', 1) ∧ Added hm ⟨key, value⟩ hm' := by
  have hfresh := Store.cell_eq_none hfresh
  obtain ⟨i, head, hi, hhead, hlist⟩ := h.exists_list hkey
  have hmem := List.mem_of_getElem? hhead
  -- what a walk to the end of the chain says about all entries
  have hnew : (∀ a ∈ hm.chain head, ∀ node, hm.nodes.cell a = some node →
      hm.compare node.map.key key ≠ 0) → ∀ e ∈ hm.entries, hm.compare e.key key ≠ 0 := by
    intro hall e he heq
    obtain ⟨a, ha, node, hnode, rfl⟩ := HashmapT.mem_entries.mp he
    exact hall a (h.mem_chain hh ha hnode heq hi hhead) node hnode heq
  have hadd : ∀ hm' : HashmapT K V, hmStore hm key value addr = some (hm', 1) →
      Appends hm i head ⟨key, value⟩ addr hm' → (∀ e ∈ hm.entries, hm.compare e.key key ≠ 0) →
      ∃ hm', hmStore hm key value addr = some (hm', 1) ∧ Added hm ⟨key, value⟩ hm' :=
    fun _ hstore happ hnew => ⟨_, hstore, happ.valid h hh hi hhead hfresh hnew, happ.size,
      happ.hash, happ.compare, hnew, happ.mem_entries h hhead hfresh⟩
  rcases head with _ | first
  · -- an empty list
    have hnil : hm.chain none = [] := Valid.chain_eq .nil
    rw [hi] at hlist
    refine .inr (hadd ((hm.setNode addr ⟨⟨key, value⟩, none⟩).setList i (some addr))
      (by simp [hmStore, hlist, hi]) ⟨fun b => ?_, ?_, rfl, rfl, rfl⟩ (hnew (by simp [hnil])))
    · simp [hnil, HashmapT.setList, HashmapT.setNode, Store.insert_cell]
    · simp [HashmapT.setList, HashmapT.setNode]
  · have hpath := h.path _ hmem
    rcases walk_spec key none hpath (h.chain_length_lt_fuel hmem)
      with ⟨hwalk, hall⟩ | ⟨l₁, a, l₂, node, hwalk, hchain, hnode, heq⟩
    · -- the new node goes behind the last one
      rcases hlast : (hm.chain (some first)).getLast? with _ | b
      · rw [List.getLast?_eq_none_iff.mp hlast] at hpath
        cases Store.Path.nil_iff.mp hpath
      · obtain ⟨node, hnode⟩ := hpath.exists_cell (List.mem_of_getLast? hlast)
        have hne : b ≠ addr := by
          rintro rfl
          rw [hfresh] at hnode
          cases hnode
        have hcell : (hm.setNode addr ⟨⟨key, value⟩, none⟩).nodes.cell b = some node := by
          rw [HashmapT.setNode, Store.insert_cell_of_ne _ _ hne, hnode]
        rw [hlast, Option.some_or] at hwalk
        refine .inr (hadd ((hm.setNode addr ⟨⟨key, value⟩, none⟩).setNode b
          { node with next := some addr }) (by simp [hmStore, hlist, hwalk, hcell])
          ⟨fun d => ?_, by simp [HashmapT.setNode], rfl, rfl, rfl⟩ (hnew hall))
        by_cases hdb : d = b
        · subst hdb
          simp [HashmapT.setNode, hne, hlast, hnode]
        · simp [HashmapT.setNode, Store.insert_cell, hlast, hdb, Ne.symm hdb]
    · exact .inl ⟨by simp [hmStore, hlist, hwalk], node.map, HashmapT.mem_entries.mpr
        ⟨a, HashmapT.mem_addresses.mpr ⟨i, _, hhead, by simp [hchain]⟩, node, hnode, rfl⟩, heq⟩

/-! ### Changing a value -/

section SetNode

variable {node' : NodeT K V}

/-- A node with the same successor in the place of another changes no path. -/
private theorem setNode_path (hnode : hm.nodes.cell a = some node) (hnext : node'.next = node.next)
    (hp : hm.nodes.Path NodeT.next none p l) :
    (hm.setNode a node').nodes.Path NodeT.next none p l :=
  hp.congr fun _ _ _ hv => Store.exists_insert_cell NodeT.next hnode hv hnext

private theorem Valid.setNode_chain (h : Valid hm) (hnode : hm.nodes.cell a = some node)
    (hnext : node'.next = node.next) (hhead : head ∈ hm.lists) :
    (hm.setNode a node').chain head = hm.chain head :=
  chain_eq (setNode_path hnode hnext (h.path head hhead))

theorem Valid.setNode_addresses (h : Valid hm) (hnode : hm.nodes.cell a = some node)
    (hnext : node'.next = node.next) : (hm.setNode a node').addresses = hm.addresses :=
  congrArg List.flatten (List.map_congr_left fun _ => h.setNode_chain hnode hnext)

/-- Every node has the key it had. -/
private theorem exists_cell_of_setNode (hnode : hm.nodes.cell a = some node)
    (hkey : node'.map.key = node.map.key) (hm' : (hm.setNode a node').nodes.cell b = some m) :
    ∃ n, hm.nodes.cell b = some n ∧ n.map.key = m.map.key :=
  Store.exists_of_insert_cell (fun n => n.map.key) hnode hm' hkey

/-- A node with the same key and the same successor in the place of another keeps the
invariant. -/
private theorem Valid.setNode (h : Valid hm) (hnode : hm.nodes.cell a = some node)
    (hnext : node'.next = node.next) (hkey : node'.map.key = node.map.key) :
    Valid (hm.setNode a node') := by
  refine ⟨h.pos, h.length, fun head hhead => ?_, fun i head hi b hb m' hm₁ => ?_,
    fun b hb d hd m' n' hm₁ hn₁ heq => ?_⟩
  · rw [h.setNode_chain hnode hnext hhead]
    exact setNode_path hnode hnext (h.path head hhead)
  · obtain ⟨m, hm₂, hkey'⟩ := exists_cell_of_setNode hnode hkey hm₁
    rw [h.setNode_chain hnode hnext (List.mem_of_getElem? hi)] at hb
    rw [← hkey']
    exact h.home i head hi b hb m hm₂
  · obtain ⟨m, hm₂, hkeym⟩ := exists_cell_of_setNode hnode hkey hm₁
    obtain ⟨n, hn₂, hkeyn⟩ := exists_cell_of_setNode hnode hkey hn₁
    rw [h.setNode_addresses hnode hnext] at hb hd
    exact h.distinct b hb d hd m n hm₂ hn₂ (by rwa [hkeym, hkeyn])

/-- The new entry stands for the one with its key. -/
private theorem Valid.mem_entries_setNode (h : Valid hm) (hh : Hashing hm.hash hm.compare)
    (ha : a ∈ hm.addresses) (hnode : hm.nodes.cell a = some node)
    (hnext : node'.next = node.next) :
    e ∈ (hm.setNode a node').entries ↔
      e = node'.map ∨ e ∈ hm.entries ∧ hm.compare e.key node.map.key ≠ 0 := by
  rw [HashmapT.mem_entries, HashmapT.mem_entries, h.setNode_addresses hnode hnext]
  constructor
  · rintro ⟨b, hb, m, hm₁, rfl⟩
    rcases Store.insert_cell_eq_some.mp hm₁ with ⟨-, rfl⟩ | ⟨hba, hm₁⟩
    · exact .inl rfl
    · -- no other node has the key of `a`
      exact .inr ⟨⟨b, hb, m, hm₁, rfl⟩,
        fun heq => hba (h.distinct b hb a ha m node hm₁ hnode heq)⟩
  · rintro (rfl | ⟨⟨b, hb, m, hm₁, rfl⟩, hne⟩)
    · exact ⟨a, ha, node', Store.insert_cell_self _ _ _, rfl⟩
    · have hba : b ≠ a := by
        rintro rfl
        obtain rfl := Option.some.inj (hnode.symm.trans hm₁)
        exact hne (hh.refl _)
      exact ⟨b, hb, m, (Store.insert_cell_of_ne _ _ hba).trans hm₁, rfl⟩

end SetNode

/-- **Writing the value** of an entry keeps the invariant and the other entries. -/
theorem setValue_spec (h : Valid hm) (hh : Hashing hm.hash hm.compare) (ha : a ∈ hm.addresses)
    (hnode : hm.nodes.cell a = some node) (value : V) :
    ∃ hm', hm.setValue a value = some hm' ∧ Valid hm' ∧ hm'.size = hm.size ∧
      hm'.hash = hm.hash ∧ hm'.compare = hm.compare ∧
      ∀ e, e ∈ hm'.entries ↔ e = ⟨node.map.key, value⟩ ∨
        e ∈ hm.entries ∧ hm.compare e.key node.map.key ≠ 0 :=
  ⟨hm.setNode a { node with map := { node.map with value := value } },
    by simp [HashmapT.setValue, hnode], h.setNode hnode rfl rfl, rfl, rfl, rfl,
    fun _ => h.mem_entries_setNode hh ha hnode rfl⟩

/-! ### The iterator -/

/-- The nodes `l` are the current node of the iterator and the ones behind it. -/
structure Pending (hm : HashmapT K V) (hmi : HmIteratorT) (l : List ℕ) : Prop where
  lower : -1 ≤ hmi.indexNo
  upper : hmi.indexNo ≤ hm.size - 1
  nodes : ∃ l₀, hm.nodes.Path NodeT.next none hmi.currentNode l₀ ∧
    l = l₀ ++ ((hm.lists.drop (hmi.indexNo + 1).toNat).map hm.chain).flatten

/-- **The nodes still to be visited**: those behind the current node. -/
def Remaining (hm : HashmapT K V) (hmi : HmIteratorT) (l : List ℕ) : Prop :=
  (hmi.currentNode = none ∧ Pending hm hmi l) ∨
    ∃ a, hmi.currentNode = some a ∧ Pending hm hmi (a :: l)

/-- A fresh iterator has all nodes before it. -/
theorem remaining_create (h : Valid hm) : Remaining hm hmCreateIterator hm.addresses := by
  refine .inl ⟨rfl, le_rfl, ?_, [], .nil, ?_⟩
  · have := h.pos
    simp only [hmCreateIterator]
    omega
  · simp [hmCreateIterator, HashmapT.addresses]

/-- In the last list nothing follows a null pointer. -/
private theorem Pending.eq_nil (h : Pending hm hmi l) (hv : Valid hm)
    (hcur : hmi.currentNode = none)
    (hlast : hmi.indexNo = hm.size - 1) : l = [] := by
  obtain ⟨l₀, hp, rfl⟩ := h.nodes
  rw [hcur] at hp
  have hlen := hv.length
  have hdrop : hm.lists.drop (hmi.indexNo + 1).toNat = [] := List.drop_eq_nil_of_le (by omega)
  rw [Store.Path.unique hp .nil, hdrop]
  rfl

/-- **`hmi_get`** enters lists until one has a node, and answers the first pending node. The
induction is on the lists behind the current one. -/
theorem hmiGet_spec (hv : Valid hm) (h : Pending hm hmi l) (hn : hm.size - hmi.indexNo ≤ n) :
    ∃ hmi', hmiGet hm n hmi = some (hmi', l.head?) ∧ Pending hm hmi' l ∧
      hmi'.currentNode = l.head? := by
  induction n generalizing hmi with
  | zero =>
    have := h.upper
    omega
  | succ n ih =>
    obtain ⟨l₀, hp, hl⟩ := h.nodes
    rcases hcur : hmi.currentNode with _ | a
    · by_cases hlast : hmi.indexNo = hm.size - 1
      · have hnil := h.eq_nil hv hcur hlast
        exact ⟨hmi, by simp [hmiGet, hcur, hlast, hnil], h, by rw [hcur, hnil]; rfl⟩
      · have hlower := h.lower
        have hupper := h.upper
        have hlen := hv.length
        have hi : (hmi.indexNo + 1).toNat < hm.lists.length := by omega
        have hlist : hm.list (hmi.indexNo + 1) = some hm.lists[(hmi.indexNo + 1).toNat] := by
          rw [HashmapT.list, if_neg (by omega), List.getElem?_eq_getElem hi]
        have hnext : Pending hm ⟨hmi.indexNo + 1, hm.lists[(hmi.indexNo + 1).toNat]⟩ l := by
          refine ⟨by simp only; omega, by simp only; omega, _, hv.path _ (List.getElem_mem hi), ?_⟩
          rw [hcur] at hp
          have hsucc : (hmi.indexNo + 1 + 1).toNat = (hmi.indexNo + 1).toNat + 1 := by omega
          rw [hl, Store.Path.unique hp .nil, List.nil_append, hsucc,
            List.drop_eq_getElem_cons hi, List.map_cons, List.flatten_cons]
        obtain ⟨hmi', hget, hpending, hcur'⟩ := ih hnext (by simp only; omega)
        exact ⟨hmi', by simp [hmiGet, hcur, hlast, hlist, hget], hpending, hcur'⟩
    · rw [hcur] at hp
      cases hp with
      | cons _ _ =>
        have hhead : l.head? = some a := by rw [hl]; rfl
        exact ⟨hmi, by simp [hmiGet, hcur, hhead], h, by rw [hcur, hhead]⟩

/-- **`hmi_get_next`** answers the next node, and null behind the last one. -/
theorem hmiGetNext_spec (hv : Valid hm) (h : Remaining hm hmi l) :
    ∃ hmi', hmiGetNext hm hmi = some (hmi', l.head?) ∧ Remaining hm hmi' l.tail := by
  have hlen := hv.length
  have hrest : ∀ {hmi' : HmIteratorT}, Pending hm hmi' l → hmi'.currentNode = l.head? →
      Remaining hm hmi' l.tail := by
    intro hmi' hpending hcur
    cases l with
    | nil => exact .inl ⟨hcur, hpending⟩
    | cons a l => exact .inr ⟨a, hcur, hpending⟩
  rcases h with ⟨hcur, hpending⟩ | ⟨a, hcur, hpending⟩
  · by_cases hlast : hmi.indexNo = hm.size - 1
    · obtain rfl := hpending.eq_nil hv hcur hlast
      exact ⟨hmi, by simp [hmiGetNext, hcur, hlast], .inl ⟨hcur, hpending⟩⟩
    · have hlower := hpending.lower
      obtain ⟨hmi', hget, hpending', hcur'⟩ :=
        hmiGet_spec (n := hm.lists.length + 1) hv hpending (by push_cast; omega)
      exact ⟨hmi', by simp [hmiGetNext, hcur, hlast, hget], hrest hpending' hcur'⟩
  · obtain ⟨l₀, hp, hl⟩ := hpending.nodes
    rw [hcur] at hp
    cases hp with
    | @cons _ node l₁ hnode ht =>
      have hlower := hpending.lower
      have hnext : Pending hm { hmi with currentNode := node.next } l :=
        ⟨hlower, hpending.upper, l₁, ht, (List.cons.inj hl).2⟩
      obtain ⟨hmi', hget, hpending', hcur'⟩ :=
        hmiGet_spec (n := hm.lists.length + 1) hv hnext (by push_cast; omega)
      exact ⟨hmi', by simp [hmiGetNext, hcur, hnode, hget], hrest hpending' hcur'⟩

end Cs214.Hashmap
