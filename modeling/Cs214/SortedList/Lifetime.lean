import Cs214.SortedList.Listing
import Cs214.SortedList.Ownership

/-!
# The memory of a list that is not removed from

A client that inserts, iterates, and destroys the list at the end. Up to then every node is a
listed one and no item is destructed, whatever iterators are open (`Tidy`), as an iterator gives up
only nodes that something else keeps. If all iterators are closed, `SLDestroy` then leaves
nothing: no node stays, and the destructor has been called on every item once (`Tidy.destroy`).
-/

namespace Cs214.SortedList

variable {α : Type} {c : Comparator α} {w w' : World α} {a i addr : ℕ} {x : α} {k : ℤ}
  {freed : List ℕ} {out : Option α}

/-- **A list with no other nodes** than the listed ones, and no item destructed. -/
structure Tidy (c : Comparator α) (w : World α) : Prop where
  valid : Valid c w
  list : w.list.isSome
  listed : ∀ a node, w.nodes.cell a = some node → a ∈ w.linked
  kept : w.destructed = []

theorem Tidy.holds (h : Tidy c w) : Holds c w w.items := ⟨h.valid, h.list, rfl⟩

/-- **An iterator function frees nothing**, as it keeps the listed nodes. -/
theorem Tidy.settles (h : Tidy c w) (hset : Settles c w w' freed) : Tidy c w' := by
  have hlinked := hset.linked_eq h.valid
  have hnil : freed = [] := by
    refine List.eq_nil_iff_forall_not_mem.mpr fun a ha => ?_
    obtain ⟨⟨node, hnode⟩, hgone⟩ := hset.frees.gone a ha
    obtain ⟨node', hnode'⟩ :=
      hset.valid.exists_of_mem_linked (hlinked ▸ h.listed a node hnode)
    rw [hgone] at hnode'
    cases hnode'
  refine ⟨hset.valid, hset.list ▸ h.list, fun a node hnode => ?_, ?_⟩
  · obtain ⟨m, hm, -⟩ := hset.shrinks a node hnode
    exact hlinked ▸ h.listed a m hm
  · rw [hset.frees.destructed, h.kept, hnil]
    rfl

/-- **`SLInsert`.** -/
theorem Tidy.insert {advance : ℤ → Bool} (h : Tidy c w) (hadv : Passes c advance)
    (hfresh : addr ∉ w.nodes.dom) (hrun : slInsertWith advance w x addr = some (w', k)) :
    Tidy c w' ∧ w'.iterators = w.iterators := by
  rcases slInsertWith_spec hadv h.valid h.list hfresh x with
    ⟨hrun', -⟩ | ⟨w₁, l₁, l₂, hrun', hins, -⟩
  · obtain ⟨rfl, -⟩ := Prod.mk.inj (Option.some.inj (hrun'.symm.trans hrun))
    exact ⟨h, rfl⟩
  · obtain ⟨rfl, -⟩ := Prod.mk.inj (Option.some.inj (hrun'.symm.trans hrun))
    refine ⟨⟨hins.valid, hins.list ▸ h.list, fun a node hnode => ?_,
      hins.destructed.trans h.kept⟩, hins.iterators⟩
    have hitem : w₁.item a = some node.data := by
      rw [World.item, hnode]
      rfl
    rw [hins.linked, List.mem_append, List.mem_cons]
    by_cases ha : a = addr
    · exact .inr (.inl ha)
    · rw [hins.item_of_ne a ha] at hitem
      obtain ⟨m, hm, -⟩ := World.item_eq_some.mp hitem
      have hmem := h.listed a m hm
      rw [hins.linked_before, List.mem_append] at hmem
      exact hmem.imp_right .inr

/-- What a client does that reads a list: it stays tidy, with the same items. -/
structure Reads (c : Comparator α) (w w' : World α) : Prop where
  tidy : Tidy c w'
  items : w'.items = w.items

private theorem Tidy.reads (h : Tidy c w) (hset : Settles c w w' freed) : Reads c w w' :=
  ⟨h.settles hset, hset.items_eq h.valid⟩

theorem Reads.trans {w'' : World α} (h : Reads c w w') (h' : Reads c w' w'') : Reads c w w'' :=
  ⟨h'.tidy, h'.items.trans h.items⟩

/-- **`SLCreateIterator`.** -/
theorem Tidy.createIterator (h : Tidy c w) (hfresh : addr ∉ w.iterators.dom)
    (hrun : slCreateIterator w addr = some (w', i)) :
    Reads c w w' ∧ i = addr ∧ w'.iterators.dom = Insert.insert addr w.iterators.dom := by
  obtain ⟨w₁, hrun', hset, hiter⟩ := slCreateIterator_spec h.valid h.list hfresh
  obtain ⟨rfl, rfl⟩ := Prod.mk.inj (Option.some.inj (hrun'.symm.trans hrun))
  exact ⟨h.reads hset, rfl, congrArg Store.dom hiter⟩

/-- **`SLNextItem`.** -/
theorem Tidy.nextItem (h : Tidy c w) (hrun : slNextItem w i = some (w', out)) :
    Reads c w w' ∧ w'.iterators.dom = w.iterators.dom := by
  rcases hi : w.iterators.cell i with _ | it
  · rw [slNextItem, hi] at hrun
    cases hrun
  · rcases hcur : it.current with _ | a
    · rw [slNextItem_of_none hi hcur] at hrun
      obtain ⟨rfl, -⟩ := Prod.mk.inj (Option.some.inj hrun)
      exact ⟨⟨h, rfl⟩, rfl⟩
    · obtain ⟨node, hnode⟩ := h.valid.exists_current hi hcur
      obtain ⟨w₁, q, freed, hrun', hset, hiter, -⟩ := slNextItem_spec h.valid hi hcur hnode
      obtain ⟨rfl, -⟩ := Prod.mk.inj (Option.some.inj (hrun'.symm.trans hrun))
      refine ⟨h.reads hset, ?_⟩
      rw [hiter]
      exact Finset.insert_eq_of_mem (Store.mem_dom_of_cell hi)

/-- **`SLDestroyIterator`.** -/
theorem Tidy.destroyIterator (h : Tidy c w) (hrun : slDestroyIterator w i = some w') :
    Reads c w w' ∧ w'.iterators.dom = w.iterators.dom.erase i := by
  rcases hi : w.iterators.cell i with _ | it
  · rw [slDestroyIterator, hi] at hrun
    cases hrun
  · obtain ⟨w₁, freed, hrun', hset, hiter⟩ := slDestroyIterator_spec h.valid hi
    obtain rfl := Option.some.inj (hrun'.symm.trans hrun)
    exact ⟨h.reads hset, congrArg Store.dom hiter⟩

/-- **Nothing is left** of a list. -/
structure World.Gone (w : World α) : Prop where
  list : w.list = none
  nodes : w.nodes.dom = ∅
  iterators : w.iterators.dom = ∅

/-- **`SLDestroy`** when no iterator is open: the destructor has been called once on every item,
and nothing is left. -/
theorem Tidy.destroy (h : Tidy c w) (hiter : w.iterators.dom = ∅) :
    ∃ w', slDestroy w = some w' ∧ w'.Gone ∧ w'.destructed.Perm w.items := by
  obtain ⟨w₁, hrun, hchain, hv₁, -, hv'⟩ := slDestroy_spec h.valid h.list
  have hiter₁ : w₁.iterators.dom = ∅ := by
    rw [iterators_of_removals h.valid hchain, hiter]
  have hnodes : w₁.nodes.dom = ∅ := hv'.nodes_dom_eq_empty rfl hiter₁
  obtain ⟨freed, hfrees⟩ := exists_frees_of_removals h.valid hchain
  refine ⟨_, hrun, ⟨rfl, hnodes, hiter₁⟩, ?_⟩
  change w₁.destructed.Perm _
  rw [hfrees.destructed, h.kept, List.nil_append, World.items]
  -- the freed nodes are the listed ones
  refine List.Perm.filterMap _ ((List.perm_ext_iff_of_nodup hfrees.nodup h.valid.linked_nodup).mpr
    fun a => ⟨fun ha => ?_, fun ha => ?_⟩)
  · obtain ⟨⟨node, hnode⟩, -⟩ := hfrees.gone a ha
    exact h.listed a node hnode
  · obtain ⟨node, hnode⟩ := h.valid.exists_of_mem_linked ha
    by_contra hnot
    obtain ⟨node', hnode'⟩ := hfrees.kept a node hnode hnot
    have hmem := Store.mem_dom_of_cell hnode'
    rw [hnodes] at hmem
    cases hmem

end Cs214.SortedList
