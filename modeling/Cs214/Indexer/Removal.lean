import Cs214.Indexer.Buckets

/-!
# Removing an entry from the hash map

`hm_remove` finds the node of a key like `hm_get`. If it is the first node of its list, the list
goes on with the next one and the hash map is again a finite map, without the entry
(`Removed`). A later node is destroyed while the node before it still points to it: then the
list leads to an address that holds no node (`hmRemove_spec`).
-/

namespace Cs214.Hashmap

variable {K V : Type} {hm hm' : HashmapT K V} {key : K} {a b i j : ℕ} {head : Option ℕ}
  {node : NodeT K V} {l l₁ l₂ : List ℕ} {e : MapT K V}

/-- Every node that can be reached from a list is allocated. -/
def Linked (hm : HashmapT K V) : Prop :=
  ∀ head ∈ hm.lists, ∃ l, hm.nodes.Path NodeT.next none head l

/-- No node behind the first one of its list has an equal key. -/
def InFront (hm : HashmapT K V) (key : K) : Prop :=
  ∀ head, hm.list (hm.index key) = some head → ∀ a ∈ (hm.chain head).tail, ∀ node,
    hm.nodes.cell a = some node → hm.compare node.map.key key ≠ 0

theorem Valid.linked (h : Valid hm) : Linked hm := fun head hhead => ⟨_, h.path head hhead⟩

/-! ### The first node of a list -/

/-- A list that is not empty starts with its first node. -/
private theorem Valid.exists_chain_eq_cons (h : Valid hm) (ha : some a ∈ hm.lists) :
    ∃ l, hm.chain (some a) = a :: l := by
  have hp := h.path _ ha
  cases hl : hm.chain (some a) with
  | nil =>
    rw [hl] at hp
    cases Store.Path.nil_iff.mp hp
  | cons b l =>
    rw [hl] at hp
    obtain ⟨hb, -⟩ := Store.Path.cons_iff.mp hp
    exact ⟨l, by rw [Option.some.inj hb]⟩

/-- **What `hm_remove` writes** when it unlinks the first node `a` of the list number `i`. -/
structure Unlinks (hm : HashmapT K V) (i a : ℕ) (node : NodeT K V) (hm' : HashmapT K V) :
    Prop where
  nodes : hm'.nodes = hm.nodes.erase a
  lists : hm'.lists = hm.lists.set i node.next
  size : hm'.size = hm.size
  hash : hm'.hash = hm.hash
  compare : hm'.compare = hm.compare

namespace Unlinks

private theorem cell_eq_some (h : Unlinks hm i a node hm') {m : NodeT K V} :
    hm'.nodes.cell b = some m ↔ b ≠ a ∧ hm.nodes.cell b = some m := by
  rw [h.nodes, Store.erase_cell_eq_some]

private theorem index_eq (h : Unlinks hm i a node hm') (k : K) : hm'.index k = hm.index k := by
  rw [HashmapT.index, HashmapT.index, h.hash, h.size]

/-- A path that does not visit the node is as before. -/
private theorem path_congr (h : Unlinks hm i a node hm') {p q : Option ℕ}
    (hp : hm.nodes.Path NodeT.next q p l) (ha : a ∉ l) : hm'.nodes.Path NodeT.next q p l :=
  hp.congr fun _ hb v hv =>
    ⟨v, h.cell_eq_some.mpr ⟨fun hba => ha (hba ▸ hb), hv⟩, rfl⟩

/-- **The chains** lose the node. -/
theorem path (h : Unlinks hm i a node hm') (hv : Valid hm) (hhead : hm.lists[i]? = some (some a))
    (hnode : hm.nodes.cell a = some node) (hj : hm.lists[j]? = some head) :
    ∃ head', hm'.lists[j]? = some head' ∧
      hm'.nodes.Path NodeT.next none head' ((hm.chain head).erase a) := by
  have hpath := hv.path head (List.mem_of_getElem? hj)
  obtain ⟨l, hl⟩ := hv.exists_chain_eq_cons (List.mem_of_getElem? hhead)
  by_cases hji : j = i
  · subst hji
    obtain rfl := Option.some.inj (hj.symm.trans hhead)
    have hnd := hpath.nodup
    rw [hl] at hpath hnd ⊢
    obtain ⟨-, m, hm, ht⟩ := Store.Path.cons_iff.mp hpath
    obtain rfl := Option.some.inj (hnode.symm.trans hm)
    refine ⟨node.next, ?_, ?_⟩
    · rw [h.lists, List.getElem?_set_self (List.getElem?_eq_some_iff.mp hj).1]
    · rw [List.erase_cons_head]
      exact h.path_congr ht (List.nodup_cons.mp hnd).1
  · -- the node is in the list its key hashes to only
    have ha : a ∉ hm.chain head := fun ha => by
      have h₁ := hv.home j head hj a ha node hnode
      have h₂ := hv.home i _ hhead a (by simp [hl]) node hnode
      omega
    refine ⟨head, ?_, ?_⟩
    · rw [h.lists, List.getElem?_set_ne (Ne.symm hji), hj]
    · rw [List.erase_of_not_mem ha]
      exact h.path_congr hpath ha

/-- The chain of each list, from the chain it was. -/
private theorem exists_chain (h : Unlinks hm i a node hm') (hv : Valid hm)
    (hhead : hm.lists[i]? = some (some a)) (hnode : hm.nodes.cell a = some node)
    {head' : Option ℕ} (hj : hm'.lists[j]? = some head') :
    ∃ head, hm.lists[j]? = some head ∧ hm'.chain head' = (hm.chain head).erase a ∧
      hm'.nodes.Path NodeT.next none head' (hm'.chain head') := by
  have hlt : j < hm.lists.length := by
    have hlt := (List.getElem?_eq_some_iff.mp hj).1
    rwa [h.lists, List.length_set] at hlt
  obtain ⟨head₂, hj₂, hp⟩ := h.path hv hhead hnode (List.getElem?_eq_getElem hlt)
  obtain rfl := Option.some.inj (hj.symm.trans hj₂)
  have hchain := Valid.chain_eq hp
  exact ⟨_, List.getElem?_eq_getElem hlt, hchain, hchain ▸ hp⟩

/-- The nodes after one has been unlinked. -/
private theorem mem_addresses (h : Unlinks hm i a node hm') (hv : Valid hm)
    (hhead : hm.lists[i]? = some (some a)) (hnode : hm.nodes.cell a = some node) :
    b ∈ hm'.addresses ↔ b ≠ a ∧ b ∈ hm.addresses := by
  have hmem {head : Option ℕ} {j : ℕ} (hj : hm.lists[j]? = some head) :
      b ∈ (hm.chain head).erase a ↔ b ≠ a ∧ b ∈ hm.chain head :=
    (hv.path head (List.mem_of_getElem? hj)).nodup.mem_erase_iff
  simp only [HashmapT.mem_addresses]
  constructor
  · rintro ⟨j, head', hj', hb⟩
    obtain ⟨head, hj, hchain, -⟩ := h.exists_chain hv hhead hnode hj'
    rw [hchain, hmem hj] at hb
    exact ⟨hb.1, j, head, hj, hb.2⟩
  · rintro ⟨hba, j, head, hj, hb⟩
    obtain ⟨head', hj', hp⟩ := h.path hv hhead hnode hj
    exact ⟨j, head', hj', by rw [Valid.chain_eq hp, hmem hj]; exact ⟨hba, hb⟩⟩

/-- **Unlinking the first node** of a list keeps the invariant. -/
theorem valid (h : Unlinks hm i a node hm') (hv : Valid hm)
    (hhead : hm.lists[i]? = some (some a)) (hnode : hm.nodes.cell a = some node) : Valid hm' := by
  refine ⟨by rw [h.size]; exact hv.pos, by rw [h.lists, List.length_set, h.size]; exact hv.length,
    fun head' hmem => ?_, fun j head' hj' b hb m hm₁ => ?_, fun b hb d hd m n hm₁ hn₁ heq => ?_⟩
  · obtain ⟨j, hj'⟩ := List.getElem?_of_mem hmem
    obtain ⟨-, -, -, hp⟩ := h.exists_chain hv hhead hnode hj'
    exact hp
  · obtain ⟨head, hj, hchain, -⟩ := h.exists_chain hv hhead hnode hj'
    rw [hchain] at hb
    rw [h.index_eq]
    exact hv.home j head hj b (List.mem_of_mem_erase hb) m (h.cell_eq_some.mp hm₁).2
  · rw [h.mem_addresses hv hhead hnode] at hb hd
    rw [h.compare] at heq
    exact hv.distinct b hb.2 d hd.2 m n (h.cell_eq_some.mp hm₁).2 (h.cell_eq_some.mp hn₁).2 heq

/-- The entries after one has been removed. -/
private theorem mem_entries (h : Unlinks hm i a node hm') (hv : Valid hm)
    (hh : Hashing hm.hash hm.compare) (hhead : hm.lists[i]? = some (some a))
    (hnode : hm.nodes.cell a = some node) (ha : a ∈ hm.addresses)
    (heq : hm.compare node.map.key key = 0) :
    e ∈ hm'.entries ↔ e ∈ hm.entries ∧ hm.compare e.key key ≠ 0 := by
  simp only [HashmapT.mem_entries, h.mem_addresses hv hhead hnode, h.cell_eq_some]
  constructor
  · rintro ⟨b, ⟨-, hb⟩, m, ⟨hba, hm₁⟩, rfl⟩
    refine ⟨⟨b, hb, m, hm₁, rfl⟩, fun hkey => hba ?_⟩
    exact hv.distinct b hb a ha m node hm₁ hnode (hh.trans _ _ _ hkey (hh.symm _ _ heq))
  · rintro ⟨⟨b, hb, m, hm₁, rfl⟩, hkey⟩
    have hba : b ≠ a := by
      rintro rfl
      obtain rfl := Option.some.inj (hnode.symm.trans hm₁)
      exact hkey heq
    exact ⟨b, ⟨hba, hb⟩, m, ⟨hba, hm₁⟩, rfl⟩

end Unlinks

/-! ### What `hm_remove` does -/

/-- **What `hm_remove` does** when it removes the entries with a key. -/
structure Removed (hm : HashmapT K V) (key : K) (hm' : HashmapT K V) : Prop where
  valid : Valid hm'
  size : hm'.size = hm.size
  hash : hm'.hash = hm.hash
  compare : hm'.compare = hm.compare
  entries : ∀ e, e ∈ hm'.entries ↔ e ∈ hm.entries ∧ hm.compare e.key key ≠ 0

/-- Destroying a node that is not the first of its list leaves a pointer to it. -/
private theorem not_linked_destroyNode (h : Valid hm) (hhead : head ∈ hm.lists)
    (hchain : hm.chain head = l₁ ++ a :: l₂) : ¬Linked (hm.destroyNode a) := by
  intro hlinked
  obtain ⟨l, hl⟩ := hlinked head hhead
  have hp := h.path head hhead
  have hnd := hp.nodup
  rw [hchain] at hp hnd
  -- the nodes before it still lead to it
  have hp₁ : (hm.destroyNode a).nodes.Path NodeT.next (some a) head l₁ := by
    refine hp.split_at.1.congr fun b hb v hv => ⟨v, ?_, rfl⟩
    have hba : b ≠ a := fun hba => (List.nodup_append.mp hnd).2.2 b hb a (by simp) hba
    exact Store.erase_cell_eq_some.mpr ⟨hba, hv⟩
  obtain ⟨l', hl'⟩ := hp₁.exists_rest hl
  cases hl' with
  | cons hcell _ => simp [HashmapT.destroyNode] at hcell

/-- **`hm_remove`**: without an entry for the key nothing happens; an entry in front of its list
is removed; any other one leaves its list with a pointer to a destroyed node. -/
theorem hmRemove_spec (h : Valid hm) (hh : Hashing hm.hash hm.compare)
    (hkey : 0 ≤ hm.index key) :
    (hmRemove hm key = some (hm, none) ∧ InFront hm key ∧
        ∀ e ∈ hm.entries, hm.compare e.key key ≠ 0) ∨
      ∃ hm' e, hmRemove hm key = some (hm', some e.value) ∧ e ∈ hm.entries ∧
        hm.compare e.key key = 0 ∧
        (InFront hm key ∧ Removed hm key hm' ∨ ¬InFront hm key ∧ ¬Linked hm') := by
  obtain ⟨i, head, hi, hhead, hlist⟩ := h.exists_list hkey
  have hmem := List.mem_of_getElem? hhead
  have hfront : InFront hm key ↔ ∀ a ∈ (hm.chain head).tail, ∀ node,
      hm.nodes.cell a = some node → hm.compare node.map.key key ≠ 0 := by
    refine ⟨fun hf => hf head hlist, fun hf head' hhead' => ?_⟩
    obtain rfl := Option.some.inj (hlist.symm.trans hhead')
    exact hf
  rcases walk_spec key none (h.path head hmem) (h.chain_length_lt_fuel hmem)
    with ⟨hwalk, hall⟩ | ⟨l₁, a, l₂, node, hwalk, hchain, hnode, heq⟩
  · refine .inl ⟨?_, hfront.mpr fun a ha => hall a (List.mem_of_mem_tail ha), fun e he heq => ?_⟩
    · cases head with
      | none => simp [hmRemove, hlist]
      | some first => simp [hmRemove, hlist, hwalk]
    · obtain ⟨a, ha, node, hnode, rfl⟩ := HashmapT.mem_entries.mp he
      exact hall a (h.mem_chain hh ha hnode heq hi hhead) node hnode heq
  · have ha : a ∈ hm.addresses := HashmapT.mem_addresses.mpr ⟨i, head, hhead, by simp [hchain]⟩
    have he : node.map ∈ hm.entries := HashmapT.mem_entries.mpr ⟨a, ha, node, hnode, rfl⟩
    obtain ⟨first, rfl⟩ : ∃ first, head = some first := by
      cases head with
      | none => rw [show hm.chain none = [] from Valid.chain_eq .nil] at hchain; simp at hchain
      | some first => exact ⟨first, rfl⟩
    obtain ⟨l, hl⟩ := h.exists_chain_eq_cons hmem
    rcases l₁ with _ | ⟨b, l₁⟩
    · -- the first node
      obtain ⟨rfl, rfl⟩ := List.cons.inj (hl.symm.trans hchain)
      have hunlinks : Unlinks hm i first node
          ((hm.setList (hm.index key) node.next).destroyNode first) :=
        ⟨rfl, by simp [HashmapT.setList, HashmapT.destroyNode, hi], rfl, rfl, rfl⟩
      refine .inr ⟨_, node.map, by simp [hmRemove, hlist, hwalk, hnode], he, heq,
        .inl ⟨hfront.mpr fun b hb m hm₁ hkey' => ?_, hunlinks.valid h hhead hnode, rfl, rfl, rfl,
          fun e => hunlinks.mem_entries h hh hhead hnode ha heq⟩⟩
      -- a second node with the key would be the same node
      have hb' : b ∈ hm.chain (some first) := List.mem_of_mem_tail hb
      have hba := h.distinct b (HashmapT.mem_addresses.mpr ⟨i, _, hhead, hb'⟩) first ha m node hm₁
        hnode (hh.trans _ _ _ hkey' (hh.symm _ _ heq))
      have hnd := (h.path _ hmem).nodup
      rw [hl] at hb hnd
      exact (List.nodup_cons.mp hnd).1 (hba ▸ hb)
    · -- a later node
      obtain ⟨d, hlast⟩ : ∃ d, (b :: l₁).getLast? = some d :=
        Option.isSome_iff_exists.mp (by simp)
      rw [hlast] at hwalk
      refine .inr ⟨hm.destroyNode a, node.map, by simp [hmRemove, hlist, hwalk, hnode], he, heq,
        .inr ⟨fun hf => ?_, not_linked_destroyNode h hmem hchain⟩⟩
      exact hfront.mp hf a (by simp [hchain]) node hnode heq

end Cs214.Hashmap
