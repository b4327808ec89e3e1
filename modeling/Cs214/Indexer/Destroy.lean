import Cs214.Indexer.AnyOrder
import Cs214.Indexer.FiniteMap
import Cs214.Indexer.TokenizeFile
import Cs214.Library.Release

/-!
# The end of a hash map

`hm_destroy` walks down every list and destroys its nodes on the way back. It comes to its end
exactly if the lists lead to allocated nodes only and share none of them, and then gives back the
nodes that can be reached from a list (`hmDestroy_spec`, `linked_of_hmDestroy`). Whether these are
all nodes depends on the calls before: `hm_store` and the removals from the front of a list keep
every node within reach (`Reached`), while a removal from behind the front leaves a pointer to a
node that is gone, so that `hm_destroy` reads freed memory (`hmDestroy_run`).
-/

namespace Cs214.Hashmap

variable {K V : Type} {hm hm' hm₀ : HashmapT K V} {key : K} {value : V} {a addr n : ℕ}
  {p : Option ℕ} {l : List ℕ} {hash : K → ℤ} {compare : K → K → ℤ} {size result : ℤ}
  {old : Option V} {e : MapT K V}

/-! ### The functions -/

/-- `recursively_destroy_node`: the nodes behind a node before the node itself. -/
def recursivelyDestroyNode : ℕ → HashmapT K V → Option ℕ → Option (HashmapT K V)
  | 0, _, _ => none
  | _ + 1, hm, none => some hm
  | n + 1, hm, some node => do
    let { next, .. } ← hm.nodes.cell node
    let hm ← recursivelyDestroyNode n hm next
    -- `node_destroy` reads the map of the node
    let _ ← hm.nodes.cell node
    some (hm.destroyNode node)

/-- What the loop of `hm_destroy` does with the list number `i`. -/
def destroyList (hm : HashmapT K V) (i : ℕ) : Option (HashmapT K V) := do
  let list ← hm.list i
  recursivelyDestroyNode hm.fuel hm list

/-- **`hm_destroy`**, and the nodes that it leaves in memory. -/
def hmDestroy (hm : HashmapT K V) : Option (Store (NodeT K V)) := do
  let hm ← (List.range hm.size.toNat).foldlM destroyList hm
  some hm.nodes

/-! ### What it gives back -/

/-- **Nodes have been destroyed**, and the array is as it was. -/
structure Destroys (hm : HashmapT K V) (l : List ℕ) (hm' : HashmapT K V) : Prop where
  nodes : hm.nodes.Without l hm'.nodes
  lists : hm'.lists = hm.lists

namespace Destroys

private theorem refl (hm : HashmapT K V) : Destroys hm [] hm := ⟨.refl _, rfl⟩

private theorem trans {hm'' : HashmapT K V} {l' : List ℕ} (h : Destroys hm l hm')
    (h' : Destroys hm' l' hm'') : Destroys hm (l ++ l') hm'' :=
  ⟨h.nodes.trans h'.nodes, h'.lists.trans h.lists⟩

private theorem destroyNode (h : Destroys hm l hm') (a : ℕ) :
    Destroys hm (a :: l) (hm'.destroyNode a) := ⟨h.nodes.erase a, h.lists⟩

private theorem list (h : Destroys hm l hm') (i : ℤ) : hm'.list i = hm.list i := by
  rw [HashmapT.list, HashmapT.list, h.lists]

end Destroys

/-- **The recursion down a list** destroys the nodes of the list. -/
theorem recursivelyDestroyNode_spec (hp : hm.nodes.Path NodeT.next none p l) (hn : l.length < n) :
    ∃ hm', recursivelyDestroyNode n hm p = some hm' ∧ Destroys hm l hm' := by
  have hnd := hp.nodup
  induction l generalizing n p with
  | nil =>
    obtain rfl := Store.Path.nil_iff.mp hp
    obtain ⟨n, rfl⟩ := Nat.exists_eq_add_one.mpr hn
    exact ⟨hm, rfl, .refl hm⟩
  | cons a l ih =>
    obtain ⟨rfl, node, hnode, ht⟩ := Store.Path.cons_iff.mp hp
    obtain ⟨ha, hnd⟩ := List.nodup_cons.mp hnd
    obtain ⟨n, rfl⟩ := Nat.exists_eq_add_one.mpr (Nat.zero_lt_of_lt hn)
    obtain ⟨hm', hrun, hdestroys⟩ := ih ht (Nat.lt_of_succ_lt_succ hn) hnd
    -- the node itself is still there
    have hstill : hm'.nodes.cell a = some node :=
      (hdestroys.nodes.cell_of_notMem ha).trans hnode
    exact ⟨hm'.destroyNode a, by simp [recursivelyDestroyNode, hnode, hrun, hstill],
      hdestroys.destroyNode a⟩

/-- A recursion that comes to its end was down a list. -/
private theorem exists_path_of_recursivelyDestroyNode
    (h : recursivelyDestroyNode n hm p = some hm') :
    ∃ l, hm.nodes.Path NodeT.next none p l ∧ Destroys hm l hm' := by
  induction n generalizing p hm' with
  | zero => cases h
  | succ n ih =>
    cases p with
    | none =>
      obtain rfl := Option.some.inj h
      exact ⟨[], .nil, .refl hm⟩
    | some a =>
      obtain ⟨node, hnode, h⟩ := Option.bind_eq_some_iff.mp h
      obtain ⟨hm₁, hrest, h⟩ := Option.bind_eq_some_iff.mp h
      obtain ⟨-, -, h⟩ := Option.bind_eq_some_iff.mp h
      obtain rfl := Option.some.inj h
      obtain ⟨l, hp, hdestroys⟩ := ih hrest
      exact ⟨a :: l, .cons hnode hp, hdestroys.destroyNode a⟩

/-- The nodes of some lists. -/
def HashmapT.nodesOf (hm : HashmapT K V) (lists : List (Option ℕ)) : List ℕ :=
  (lists.map hm.chain).flatten

/-- **The loop over the lists** up to number `n`. -/
theorem destroyLists_spec (h : Valid hm) (hn : n ≤ hm.lists.length) :
    ∃ hm', (List.range n).foldlM destroyList hm = some hm' ∧
      Destroys hm (hm.nodesOf (hm.lists.take n)) hm' := by
  induction n with
  | zero => exact ⟨hm, rfl, .refl hm⟩
  | succ n ih =>
    obtain ⟨hm', hrun, hdestroys⟩ := ih (Nat.le_of_succ_le hn)
    have hget : hm.lists[n]? = some hm.lists[n] := List.getElem?_eq_getElem hn
    have hpath := h.path _ (List.mem_of_getElem? hget)
    have htake : hm.nodesOf (hm.lists.take (n + 1)) =
        hm.nodesOf (hm.lists.take n) ++ hm.chain hm.lists[n] := by
      rw [HashmapT.nodesOf, List.take_succ_eq_append_getElem hn, List.map_append,
        List.flatten_append, List.map_singleton, List.flatten_singleton, HashmapT.nodesOf]
    -- no node of the lists before is in this one
    have hapart : ∀ a ∈ hm.chain hm.lists[n], a ∉ hm.nodesOf (hm.lists.take n) := by
      have hnd := h.addresses_nodup
      have hsplit : hm.addresses = hm.nodesOf (hm.lists.take (n + 1)) ++
          hm.nodesOf (hm.lists.drop (n + 1)) := by
        rw [HashmapT.nodesOf, HashmapT.nodesOf, ← List.flatten_append, ← List.map_append,
          List.take_append_drop, HashmapT.addresses]
      rw [hsplit, htake] at hnd
      exact fun a ha hbefore =>
        (List.nodup_append.mp (List.nodup_append.mp hnd).1).2.2 a hbefore a ha rfl
    have hpath' := hdestroys.nodes.path hpath hapart
    obtain ⟨hm'', hlist, hdestroys'⟩ := recursivelyDestroyNode_spec hpath'
      (Nat.lt_succ_of_le (hpath'.length_le_card hpath'.nodup))
    refine ⟨hm'', ?_, htake ▸ hdestroys.trans hdestroys'⟩
    have hhead : hm'.list n = some hm.lists[n] := by
      rw [hdestroys.list, HashmapT.list, if_neg (Int.natCast_nonneg n).not_gt, Int.toNat_natCast,
        hget]
    rw [List.range_succ, List.foldlM_append, hrun]
    simp only [Option.bind_eq_bind, Option.bind_some, List.foldlM_cons, List.foldlM_nil,
      destroyList, hhead, HashmapT.fuel, hlist]
    rfl

/-- **`hm_destroy`** destroys the nodes that can be reached from a list. -/
theorem hmDestroy_spec (h : Valid hm) :
    ∃ nodes, hmDestroy hm = some nodes ∧ hm.nodes.Without hm.addresses nodes := by
  have hlength : hm.size.toNat = hm.lists.length := by
    have hlength := h.length
    omega
  obtain ⟨hm', hrun, hdestroys⟩ := destroyLists_spec h hlength.le
  refine ⟨hm'.nodes, by simp [hmDestroy, hrun], ?_⟩
  have hnodes := hdestroys.nodes
  rwa [hlength, List.take_length] at hnodes

/-- A loop that comes to its end has found every node of the lists it has passed. -/
private theorem exists_path_of_destroyLists (h : (List.range n).foldlM destroyList hm = some hm') :
    (∃ l, Destroys hm l hm') ∧ ∀ i < n, ∃ head l, hm.list i = some head ∧
      hm.nodes.Path NodeT.next none head l := by
  induction n generalizing hm' with
  | zero =>
    obtain rfl := Option.some.inj h
    exact ⟨⟨[], .refl _⟩, fun i hi => absurd hi (Nat.not_lt_zero i)⟩
  | succ n ih =>
    rw [List.range_succ, List.foldlM_append] at h
    obtain ⟨hm₁, hrun, h⟩ := Option.bind_eq_some_iff.mp h
    obtain ⟨⟨l, hdestroys⟩, hpaths⟩ := ih hrun
    rw [List.foldlM_cons] at h
    obtain ⟨hm₂, hlist, h⟩ := Option.bind_eq_some_iff.mp h
    obtain rfl := Option.some.inj h
    obtain ⟨head, hhead, hlist⟩ := Option.bind_eq_some_iff.mp hlist
    obtain ⟨l', hpath, hdestroys'⟩ := exists_path_of_recursivelyDestroyNode hlist
    refine ⟨⟨_, hdestroys.trans hdestroys'⟩, fun i hi => ?_⟩
    rcases Nat.lt_succ_iff_lt_or_eq.mp hi with hi | rfl
    · exact hpaths i hi
    · exact ⟨head, l', (hdestroys.list _).symm.trans hhead, hdestroys.nodes.path_before hpath⟩

/-- **`hm_destroy` follows every list**, and comes to its end only if none of them leads to a node
that is gone. -/
theorem linked_of_hmDestroy {nodes : Store (NodeT K V)} (hlength : hm.lists.length = hm.size.toNat)
    (h : hmDestroy hm = some nodes) : Linked hm := by
  obtain ⟨hm', hrun, -⟩ := Option.bind_eq_some_iff.mp h
  obtain ⟨-, hpaths⟩ := exists_path_of_destroyLists hrun
  intro head hmem
  obtain ⟨i, hi⟩ := List.getElem?_of_mem hmem
  obtain ⟨head', l, hlist, hpath⟩ := hpaths i (hlength ▸ (List.getElem?_eq_some_iff.mp hi).1)
  rw [HashmapT.list, if_neg (Int.natCast_nonneg i).not_gt, Int.toNat_natCast, hi] at hlist
  obtain rfl := Option.some.inj hlist
  exact ⟨l, hpath⟩

/-! ### Every node can be reached -/

/-- **No node is out of reach** of the lists. -/
def Reached (hm : HashmapT K V) : Prop := ∀ a ∈ hm.nodes.dom, a ∈ hm.addresses

private theorem length_addresses (h : Valid hm) : hm.addresses.length = hm.entries.length := by
  have hlength := congrArg List.length h.map_addresses
  rwa [List.length_map, List.length_map] at hlength

/-- Every node can be reached if there are not more nodes than entries. -/
private theorem reached_iff (h : Valid hm) :
    Reached hm ↔ hm.nodes.dom.card ≤ hm.entries.length := by
  have hcard : hm.addresses.toFinset.card = hm.entries.length := by
    rw [List.toFinset_card_of_nodup h.addresses_nodup, length_addresses h]
  have hsub : hm.addresses.toFinset ⊆ hm.nodes.dom := by
    intro a ha
    obtain ⟨node, hnode⟩ := h.exists_cell (List.mem_toFinset.mp ha)
    exact Store.mem_dom_of_cell hnode
  constructor
  · intro hreached
    rw [← hcard]
    exact Finset.card_le_card fun a ha => List.mem_toFinset.mpr (hreached a ha)
  · intro hle a ha
    rw [← hcard] at hle
    rw [← Finset.eq_of_subset_of_card_le hsub hle] at ha
    exact List.mem_toFinset.mp ha

private theorem reached_create (hcreate : hmCreate size hash compare = some hm₀) :
    Reached (hm₀ : HashmapT K V) := by
  rw [hmCreate] at hcreate
  split_ifs at hcreate
  obtain rfl := Option.some.inj hcreate
  exact fun a ha => absurd ha (Finset.notMem_empty a)

/-- A node that is written anew stays one node. -/
private theorem dom_setNode {node : NodeT K V} (ha : hm.nodes.cell a = some node)
    (node' : NodeT K V) :
    (hm.setNode a node').nodes.dom = hm.nodes.dom :=
  Finset.insert_eq_of_mem (Store.mem_dom_of_cell ha)

/-- `hm_store` creates one node at most. -/
private theorem card_dom_of_hmStore (hstore : hmStore hm key value addr = some (hm', result)) :
    hm'.nodes.dom.card ≤ hm.nodes.dom.card + 1 := by
  have hnew : (hm.setNode addr ⟨⟨key, value⟩, none⟩).nodes.dom.card ≤ hm.nodes.dom.card + 1 :=
    Finset.card_insert_le _ _
  obtain ⟨p, -, hstore⟩ := Option.bind_eq_some_iff.mp hstore
  cases p with
  | none =>
    obtain ⟨rfl, -⟩ := Prod.mk.inj (Option.some.inj hstore)
    exact hnew
  | some first =>
    obtain ⟨⟨prev, nodePtr⟩, -, hstore⟩ := Option.bind_eq_some_iff.mp hstore
    rcases nodePtr with _ | nodePtr
    · rcases prev with _ | prev
      · cases hstore
      · -- the last node of the list is written anew
        obtain ⟨node, hnode, hstore⟩ := Option.bind_eq_some_iff.mp hstore
        obtain ⟨rfl, -⟩ := Prod.mk.inj (Option.some.inj hstore)
        rwa [dom_setNode hnode]
    · obtain ⟨rfl, -⟩ := Prod.mk.inj (Option.some.inj hstore)
      exact Nat.le_succ _

/-- `hm_remove` destroys a node when it answers a value. -/
private theorem card_dom_of_hmRemove (hremove : hmRemove hm key = some (hm', some value)) :
    hm'.nodes.dom.card + 1 = hm.nodes.dom.card := by
  obtain ⟨p, -, hremove⟩ := Option.bind_eq_some_iff.mp hremove
  cases p with
  | none => cases (Prod.mk.inj (Option.some.inj hremove)).2
  | some first =>
    obtain ⟨⟨prev, nodePtr⟩, -, hremove⟩ := Option.bind_eq_some_iff.mp hremove
    rcases nodePtr with _ | nodePtr
    · cases (Prod.mk.inj (Option.some.inj hremove)).2
    · obtain ⟨node, hnode, hremove⟩ := Option.bind_eq_some_iff.mp hremove
      obtain ⟨rfl, -⟩ := Prod.mk.inj (Option.some.inj hremove)
      rcases prev with _ | prev
      · exact Finset.card_erase_add_one (Store.mem_dom_of_cell hnode)
      · exact Finset.card_erase_add_one (Store.mem_dom_of_cell hnode)

/-- **`hm_store`** puts its node within reach. -/
theorem Reached.store (h : Reached hm) (hv : Valid hm) (hh : Hashing hm.hash hm.compare)
    (hkey : 0 ≤ hm.index key) (hfresh : addr ∉ hm.nodes.dom)
    (hstore : hmStore hm key value addr = some (hm', result)) : Reached hm' := by
  rcases hmStore_spec hv hh hkey hfresh value with ⟨hsame, -⟩ | ⟨hm₁, hnew, hadd⟩
  · obtain ⟨rfl, -⟩ := Prod.mk.inj (Option.some.inj (hsame.symm.trans hstore))
    exact h
  · obtain ⟨rfl, -⟩ := Prod.mk.inj (Option.some.inj (hnew.symm.trans hstore))
    rw [reached_iff hadd.valid, (hadd.perm hv hh).length_eq, List.length_append]
    exact (card_dom_of_hmStore hstore).trans (Nat.succ_le_succ ((reached_iff hv).mp h))

/-- **A removal from the front** destroys the node that it puts out of reach. -/
theorem Reached.remove {m : K → Option (MapT K V)} (h : Reached hm)
    (hrep : Represents hash compare m hm) (hh : Hashing hash compare) (he : e ∈ hm.entries)
    (hkey : compare e.key key = 0) (hremove : hmRemove hm key = some (hm', some value))
    (hremoved : Removed hm key hm') : Reached hm' := by
  have hh₁ : Hashing hm.hash hm.compare := by rwa [hrep.hash_eq, hrep.compare_eq]
  have hh' : Hashing hm'.hash hm'.compare := by rwa [hremoved.hash, hremoved.compare]
  have hnot : e ∉ hm'.entries := fun hmem => by
    have hne := ((hremoved.entries e).mp hmem).2
    rw [hrep.compare_eq] at hne
    exact hne hkey
  have hperm : hm.entries.Perm (e :: hm'.entries) := by
    refine (List.perm_ext_iff_of_nodup (hrep.valid.entries_nodup hh₁)
      (List.nodup_cons.mpr ⟨hnot, hremoved.valid.entries_nodup hh'⟩)).mpr fun e' => ?_
    rw [List.mem_cons, hremoved.entries, hrep.compare_eq]
    constructor
    · intro he'
      by_cases hkey' : compare e'.key key = 0
      · -- the key has one entry
        have hthis := (hrep.entries key e').mpr ⟨he', hkey'⟩
        exact .inl (Option.some.inj (hthis.symm.trans ((hrep.entries key e).mpr ⟨he, hkey⟩)))
      · exact .inr ⟨he', hkey'⟩
    · rintro (rfl | ⟨he', -⟩)
      · exact he
      · exact he'
  have hlength := hperm.length_eq
  have hcard := card_dom_of_hmRemove hremove
  have hle := (reached_iff hrep.valid).mp h
  rw [reached_iff hremoved.valid]
  rw [List.length_cons] at hlength
  omega

section Run

variable {tr : List (Event (HashmapT K V) (Call K V) (Answer V))}

/-- **Every node can be reached** after stores and removals from the front. -/
theorem reached_of_run (hh : Hashing hash compare) (hnn : ∀ k, 0 ≤ hash k)
    (hcreate : hmCreate size hash compare = some hm₀) (h : Run machine hm₀ tr hm)
    (hfront : ∀ e ∈ tr, ∀ key, e.op = .remove key → InFront e.pre key) : Reached hm := by
  induction h with
  | nil => exact reached_create hcreate
  | @snoc tr f hrun hf ih =>
    have hfront₁ : ∀ e ∈ tr, ∀ key, e.op = .remove key → InFront e.pre key :=
      fun e he => hfront e (List.mem_append_left _ he)
    have hreached := ih hfront₁
    have hrep := represents_of_run hh hnn hcreate hrun hfront₁
    have hh₁ : Hashing f.pre.hash f.pre.compare := by rwa [hrep.hash_eq, hrep.compare_eq]
    have hnn₁ (key : K) : 0 ≤ f.pre.index key := index_nonneg (hrep.hash_eq ▸ hnn) key
    obtain ⟨hlegal, hstep⟩ := hf
    cases hop : f.op with
    | store key value addr =>
      rw [hop] at hlegal hstep
      obtain ⟨⟨hm', result⟩, hstore, heq⟩ := Option.bind_eq_some_iff.mp hstep
      obtain ⟨rfl, -⟩ := Prod.mk.inj (Option.some.inj heq)
      exact hreached.store hrep.valid hh₁ (hnn₁ key) hlegal hstore
    | remove key =>
      rw [hop] at hstep
      have hin := hfront f (by simp) key hop
      rcases hmRemove_spec hrep.valid hh₁ (hnn₁ key) with
        ⟨hrem, -⟩ | ⟨hm', e, hrem, he, hkey, ⟨-, hremoved⟩ | ⟨hnot, -⟩⟩
      · obtain ⟨hpost, -⟩ := Prod.mk.inj (Option.some.inj ((step_remove hrem).symm.trans hstep))
        rwa [← hpost]
      · obtain ⟨hpost, -⟩ := Prod.mk.inj (Option.some.inj ((step_remove hrem).symm.trans hstep))
        rw [← hpost]
        exact hreached.remove hrep hh he (hrep.compare_eq ▸ hkey) hrem hremoved
      · exact absurd hin hnot

/-- **`hm_destroy` at the end of a run** of stores and of removals from the front of a list leaves
no node. If one more removal is from behind the front, it reads a node that is gone. -/
theorem hmDestroy_run (hh : Hashing hash compare) (hnn : ∀ k, 0 ≤ hash k)
    (hcreate : hmCreate size hash compare = some hm₀) (h : Run machine hm₀ tr hm)
    (hfront : ∀ e ∈ tr, ∀ key, e.op = .remove key → InFront e.pre key) :
    hmDestroy hm = some .empty ∧ ∀ key hm' result,
      machine.step hm (.remove key) = some (hm', result) → ¬InFront hm key →
        hmDestroy hm' = none := by
  have hrep := represents_of_run hh hnn hcreate h hfront
  constructor
  · obtain ⟨nodes, hdestroy, hnodes⟩ := hmDestroy_spec hrep.valid
    rw [hdestroy, hnodes.eq_empty (reached_of_run hh hnn hcreate h hfront)]
  · intro key hm' result hstep hnot
    have hlinked := hrep.not_linked hh hnn hstep hnot
    obtain ⟨⟨hm₁, old⟩, hremove, heq⟩ := Option.bind_eq_some_iff.mp hstep
    obtain ⟨rfl, -⟩ := Prod.mk.inj (Option.some.inj heq)
    -- the array is as long as before
    have hlength : hm₁.lists.length = hm₁.size.toNat := by
      have hsame := SameTable.remove hremove
      have hlength := hrep.valid.length
      rw [hsame.lists, hsame.size]
      omega
    refine Option.eq_none_iff_forall_ne_some.mpr fun nodes hdestroy => ?_
    exact hlinked (linked_of_hmDestroy hlength hdestroy)

end Run

/-- Two entries in one list, and a removal of the second. -/
theorem hmDestroy_run_second : ∃ tr hm, Run machine oneList tr hm ∧
    tr.map Event.op = [.store 1 10 0, .store 2 20 1] ∧ hmDestroy hm = some .empty ∧
      ((machine.step hm (.remove 2)).isSome ∧ ∀ hm' result,
        machine.step hm (.remove 2) = some (hm', result) → hmDestroy hm' = none) := by
  have hrun := machine.run_get (show (machine.exec oneList
    [.store 1 10 0, .store 2 20 1]).isSome by decide)
  have hops : ((machine.exec oneList [.store 1 10 0, .store 2 20 1]).get
      (by decide)).1.map Event.op = [.store 1 10 0, .store 2 20 1] := by decide
  have hrun' := hmDestroy_run hashing_sameKey (fun _ => le_rfl) hmCreate_oneList hrun
    fun e he key hop => by
      have hmem := List.mem_map_of_mem (f := Event.op) he
      rw [hops, hop] at hmem
      simp at hmem
  refine ⟨_, _, hrun, hops, hrun'.1, by decide, fun hm' result hstep => ?_⟩
  refine hrun'.2 2 hm' result hstep fun hin => ?_
  have hcell := hin (some 0) (by decide) 1 (by decide) ⟨⟨2, 20⟩, none⟩ rfl
  exact hcell (by decide)

/-- A value that is set in a node that can be reached. -/
private theorem Reached.setValue (h : Reached hm) (hv : Valid hm)
    (hset : hm.setValue a value = some hm') :
    Reached hm' := by
  obtain ⟨node, hnode, heq⟩ := Option.bind_eq_some_iff.mp hset
  obtain rfl := Option.some.inj heq
  have haddresses : (hm.setNode a { node with map := { node.map with value := value } }).addresses =
      hm.addresses := hv.setNode_addresses hnode rfl
  intro b hb
  rw [dom_setNode hnode] at hb
  rw [haddresses]
  exact h b hb

end Cs214.Hashmap

namespace Cs214.Indexer

open Tokenizer Hashmap

variable {malloc : Allocator} {hm hm' : HashmapT CString ℤ} {seen : List CString} {t : CString}

end Cs214.Indexer
