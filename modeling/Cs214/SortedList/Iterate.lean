import Cs214.SortedList.Remove

/-!
# The iterator functions

None of them changes a link or an item of a node that stays: `Settles` is their common
effect. `slNextItem_spec` says where an advanced iterator comes to rest: on the next node
when other references keep its node, and otherwise on the first node down the links that has
a second reference, the nodes before it being freed.
-/

namespace Cs214.SortedList

variable {α : Type} {c : Comparator α} {w w' w'' : World α} {a b i : ℕ}
  {p q : Option ℕ} {node : Node α} {it : SortedListIterator} {freed freed' : List ℕ}

/-- **The effect of an iterator function** on nodes and list: the nodes `freed` go, nothing
else changes. -/
structure Settles (c : Comparator α) (w w' : World α) (freed : List ℕ) : Prop where
  valid : Valid c w'
  shrinks : Shrinks w w'
  frees : Frees w w' freed
  list : w'.list = w.list

namespace Settles

theorem first_eq (h : Settles c w w' freed) : w'.first = w.first := by
  rw [World.first, World.first, h.list]

/-- An iterator function keeps the list. -/
theorem linked_eq (h : Settles c w w' freed) (hv : Valid c w) : w'.linked = w.linked :=
  h.shrinks.linked_eq hv h.valid h.first_eq

theorem items_eq (h : Settles c w w' freed) (hv : Valid c w) : w'.items = w.items :=
  h.shrinks.items_eq hv h.valid h.first_eq

end Settles

private theorem World.first_congr (h : w'.list = w.list) : w'.first = w.first := by
  rw [World.first, World.first, h]

/-- A change of a count alone keeps all nodes with their links and items. -/
private theorem cell_setCount (ha : w.nodes.cell a = some node) (k : ℤ) (b : ℕ) :
    (∀ n', (w.setNode a { node with ptrCount := k }).nodes.cell b = some n' →
        ∃ n, w.nodes.cell b = some n ∧ n.data = n'.data ∧ n.next = n'.next) ∧
      ∀ n, w.nodes.cell b = some n →
        ∃ n', (w.setNode a { node with ptrCount := k }).nodes.cell b = some n' := by
  rw [World.setNode]
  by_cases hb : b = a
  · subst hb
    rw [Store.insert_cell_self]
    exact ⟨fun n' hn' => ⟨node, ha, by rw [← Option.some.inj hn'], by rw [← Option.some.inj hn']⟩,
      fun _ _ => ⟨_, rfl⟩⟩
  · rw [Store.insert_cell_of_ne _ _ hb]
    exact ⟨fun n' hn' => ⟨n', hn', rfl, rfl⟩, fun n hn => ⟨n, hn⟩⟩

private theorem item_setCount (ha : w.nodes.cell a = some node) (k : ℤ) (b : ℕ) :
    (w.setNode a { node with ptrCount := k }).item b = w.item b := by
  rw [World.item, World.setNode, World.item]
  by_cases hb : b = a
  · subst hb
    rw [Store.insert_cell_self, ha]
    rfl
  · rw [Store.insert_cell_of_ne _ _ hb]

/-- The effect of `if (q != NULL) q->ptrCount++` on the accounting of a world. -/
private theorem addPtrIfAny_counted {ext : ℕ → ℕ} (h : Counted c w.nodes ext)
    (hq : ∀ d, q = some d → ∃ n, w.nodes.cell d = some n) :
    ∃ w₁, w.addPtrIfAny q 1 = some w₁ ∧ Counted c w₁.nodes (ext + ref q) ∧ Shrinks w w₁ ∧
      Frees w w₁ [] ∧ w₁.list = w.list ∧ w₁.iterators = w.iterators := by
  obtain ⟨w₁, hw₁, hcell, hlist, hiter, hlog⟩ := w.addPtrIfAny_spec 1 hq
  have hshrinks : Shrinks w w₁ := by
    intro a n' hn'
    rw [hcell a] at hn'
    split_ifs at hn'
    · obtain ⟨n, hn, rfl⟩ := Option.map_eq_some_iff.mp hn'
      exact ⟨n, hn, rfl, rfl⟩
    · exact ⟨n', hn', rfl, rfl⟩
  have hitem : ∀ a, w₁.item a = w.item a := by
    intro a
    rw [World.item, hcell a, World.item]
    split_ifs <;> simp [Option.map_map, Function.comp_def]
  exact ⟨w₁, hw₁, h.retainIfAny hq hcell, hshrinks, .of_item_eq hitem hlog, hlist, hiter⟩

/-- **`SLCreateIterator`** rests a new iterator on the first node. -/
theorem slCreateIterator_spec (hv : Valid c w) (hsl : w.list.isSome)
    (hi : i ∉ w.iterators.dom) :
    ∃ w', slCreateIterator w i = some (w', i) ∧ Settles c w w' [] ∧
      w'.iterators = w.iterators.insert i ⟨w.first, .func⟩ := by
  obtain ⟨sl, hsl⟩ := Option.isSome_iff_exists.mp hsl
  have hfirst : w.first = sl.first := by simp [World.first, hsl]
  have hdes := (hv.list sl hsl).2
  obtain ⟨w₁, hw₁, hcount, hshrinks, hfrees, hlist, hiter⟩ :=
    addPtrIfAny_counted hv.counted fun d hd => hv.exists_first hd
  have hnone : w₁.iterators.cell i = none := hiter ▸ Store.cell_eq_none hi
  let w' : World α := { w₁ with iterators := w₁.iterators.insert i ⟨w.first, .func⟩ }
  have hf : w'.first = w.first := World.first_congr hlist
  have hit : w'.iterators = w₁.iterators.insert i ⟨w.first, .func⟩ := rfl
  have hvalid : Valid c w' := by
    refine ⟨hcount.congr fun a => ?_, fun l hl => hv.list l (hlist ▸ hl), fun j jt hj => ?_⟩
    · have := resting_create hnone ⟨w.first, .func⟩ a
      simp only [World.roots, Pi.add_apply, hf, hit, hiter] at this ⊢
      omega
    · rcases Store.insert_cell_eq_some.mp hj with ⟨-, rfl⟩ | ⟨-, hj⟩
      · rfl
      · exact hv.iterators j jt (hiter ▸ hj)
  refine ⟨w', ?_, ⟨hvalid, hshrinks, hfrees.of_eq rfl rfl, hlist⟩, by simp [w', hiter]⟩
  rw [hfirst] at hw₁
  simp [slCreateIterator, hsl, hw₁, w', hfirst, hdes]

/-- **`SLGetItem`** reads the item of the node the iterator rests on. -/
theorem slGetItem_spec (hv : Valid c w) (hi : w.iterators.cell i = some it) :
    slGetItem w i = some (it.current.bind w.item) := by
  rcases hcur : it.current with _ | a
  · simp [slGetItem, hi, hcur]
  · obtain ⟨n, hn⟩ := hv.exists_current hi hcur
    simp [slGetItem, hi, hcur, hn, World.item]

/-- Where an iterator comes to rest when it is advanced from the node `a`. -/
def Advances (w : World α) (a : ℕ) (node : Node α) (q : Option ℕ) (freed : List ℕ) : Prop :=
  (node.ptrCount ≠ 1 ∧ q = node.next ∧ freed = []) ∨
    (node.ptrCount = 1 ∧ w.nodes.Path Node.next q (some a) freed ∧
      (∀ d ∈ freed, ∀ n, w.nodes.cell d = some n → n.ptrCount = 1) ∧
      ∀ d n, q = some d → w.nodes.cell d = some n → n.ptrCount ≠ 1)

/-- An iterator is moved from `a` to `q`, where a reference is taken; `w₁` is the world after
its reference to `a` has been given up. -/
private theorem rest_spec {w₁ : World α} (hv : Valid c w) (hi : w.iterators.cell i = some it)
    (hcount : Counted c w₁.nodes (w.otherRoots i)) (hshrinks : Shrinks w w₁)
    (hfrees : Frees w w₁ freed) (hlist : w₁.list = w.list)
    (hiter : w₁.iterators = w.iterators)
    (hq : ∀ d, q = some d → ∃ n, w₁.nodes.cell d = some n) :
    ∃ w', ({ w₁ with iterators := w₁.iterators.insert i { it with current := q } } :
        World α).addPtrIfAny q 1 = some w' ∧ Settles c w w' freed ∧
      w'.iterators = w.iterators.insert i { it with current := q } := by
  let w₂ : World α := { w₁ with iterators := w₁.iterators.insert i { it with current := q } }
  obtain ⟨w', hw', hcount', hshrinks', hfrees', hlist', hiter'⟩ :=
    addPtrIfAny_counted (w := w₂) hcount hq
  have hiter'' : w'.iterators = w.iterators.insert i { it with current := q } := by
    rw [hiter', ← hiter]
  have hroots : ∀ a, w'.roots a = (w.otherRoots i + ref q) a := by
    intro a
    have h₁ := resting_insert hi { it with current := q } a
    have h₂ := resting_erase hi a
    have hf : w'.first = w.first := World.first_congr (hlist'.trans hlist)
    simp only [World.roots, World.otherRoots, Pi.add_apply, hiter'', hf] at h₁ ⊢
    omega
  have hvalid : Valid c w' := by
    refine ⟨hcount'.congr hroots, fun l hl => hv.list l (hlist ▸ hlist' ▸ hl), fun j jt hj => ?_⟩
    rw [hiter''] at hj
    rcases Store.insert_cell_eq_some.mp hj with ⟨-, rfl⟩ | ⟨-, hj⟩
    · exact hv.iterators i it hi
    · exact hv.iterators j jt hj
  have hmove : Frees w w₂ freed := hfrees.of_eq rfl rfl
  refine ⟨w', hw', ⟨hvalid, ?_, by simpa using hmove.trans hfrees', hlist'.trans hlist⟩, hiter''⟩
  exact (show Shrinks w w₂ from hshrinks).trans hshrinks'

/-- **`SLNextItem` at the end** answers null and changes nothing. -/
theorem slNextItem_of_none (hi : w.iterators.cell i = some it) (hcur : it.current = none) :
    slNextItem w i = some (w, none) := by
  simp [slNextItem, hi, hcur]

/-- **`SLNextItem`** moves the iterator from `a` down the links and answers the item it comes
to rest on. -/
theorem slNextItem_spec (hv : Valid c w) (hi : w.iterators.cell i = some it)
    (hcur : it.current = some a) (ha : w.nodes.cell a = some node) :
    ∃ w' q freed, slNextItem w i = some (w', q.bind w.item) ∧ Settles c w w' freed ∧
      w'.iterators = w.iterators.insert i { it with current := q } ∧
      Advances w a node q freed := by
  have hdes := hv.iterators i it hi
  have hroots : Counted c w.nodes (w.otherRoots i + ref (some a)) :=
    hv.counted.congr fun b => hcur ▸ roots_eq_otherRoots hi b
  -- the answer is the item of the node the iterator rests on
  have hanswer : ∀ {w' : World α} {q : Option ℕ} {freed : List ℕ}, Settles c w w' freed →
      w'.iterators = w.iterators.insert i { it with current := q } →
      slGetItem w' i = some (q.bind w.item) := by
    intro w' q freed hset hiter
    have hi' : w'.iterators.cell i = some { it with current := q } := by
      rw [hiter, Store.insert_cell_self]
    rw [slGetItem_spec hset.valid hi']
    rcases hq : q with _ | d
    · rfl
    · obtain ⟨n, hn⟩ := hset.valid.exists_current hi' hq
      simpa using hset.shrinks.item_eq ⟨n, hn⟩
  by_cases h1 : node.ptrCount = 1
  · -- the iterator held the last pointer: the node and removed ones behind it are destroyed
    obtain ⟨l, hl⟩ := hv.counted.descends.exists_chain ha
    obtain ⟨w₁, q, freed, hrun, hcas, hcount⟩ := nodeDestroy_spec (n := w.fuel) hroots hl
      ((hl.length_le_card (hv.counted.descends.nodup_of_path hl)).trans (Nat.le_succ _))
    have hq : ∀ d, q = some d → ∃ n, w₁.nodes.cell d = some n := by
      intro d hd
      obtain ⟨n, hn⟩ := hv.counted.descends.exists_cell_of_path (hd ▸ hcas.path) fun e he => by
        obtain rfl := Option.some.inj he
        exact ⟨node, ha⟩
      refine hcas.exists_of_notMem (fun hmem => ?_) hn
      exact hcas.stop d n hd hn (hcas.last d hmem n hn)
    obtain ⟨w', hw', hset, hiter⟩ := rest_spec hv hi hcount hcas.shrinks
      (hcas.frees hv.counted) hcas.list hcas.iterators hq
    refine ⟨w', q, freed, ?_, hset, hiter, .inr ⟨h1, hcas.path, hcas.last, hcas.stop⟩⟩
    rw [← hdes] at hrun
    simp [slNextItem, hi, hcur, ha, h1, hrun, hw', hanswer hset hiter]
  · -- the node stays, and the iterator goes to its successor
    let w₁ : World α := w.setNode a { node with ptrCount := node.ptrCount + -1 }
    have hcount : Counted c w₁.nodes (w.otherRoots i) := hroots.release ha h1
    have hcell := fun d => cell_setCount ha (node.ptrCount + -1) d
    have hq : ∀ d, node.next = some d → ∃ n, w₁.nodes.cell d = some n := by
      intro d hd
      obtain ⟨n, hn, -⟩ := hv.exists_next ha hd
      exact ((hcell d).2 n hn)
    have hshrinks : Shrinks w w₁ := fun d => (hcell d).1
    have hitem : ∀ d, w₁.item d = w.item d := fun d => item_setCount ha _ d
    obtain ⟨w', hw', hset, hiter⟩ :=
      rest_spec hv hi hcount hshrinks (.of_item_eq hitem rfl) rfl rfl hq
    refine ⟨w', node.next, [], ?_, hset, hiter, .inl ⟨h1, rfl, rfl⟩⟩
    have hadd := World.addPtr_eq ha (-1)
    simp [slNextItem, hi, hcur, ha, h1, hadd, hw', w₁, hanswer hset hiter]

/-- **`SLDestroyIterator`** gives up the reference of the iterator. -/
theorem slDestroyIterator_spec (hv : Valid c w) (hi : w.iterators.cell i = some it) :
    ∃ w' freed, slDestroyIterator w i = some w' ∧ Settles c w w' freed ∧
      w'.iterators = w.iterators.erase i := by
  have hdes := hv.iterators i it hi
  have hroots : Counted c w.nodes (w.otherRoots i + ref it.current) :=
    hv.counted.congr fun b => roots_eq_otherRoots hi b
  have hpath : w.nodes.Path Node.next none it.current (w.nodes.trail Node.next it.current) :=
    hv.counted.descends.path_trail fun d hd => hv.exists_current hi hd
  obtain ⟨w₁, q, freed, hrun, hcas, hcount⟩ := nodeDestroy_spec (n := w.fuel) hroots hpath
    ((hpath.length_le_card (hv.counted.descends.nodup_of_path hpath)).trans (Nat.le_succ _))
  let w' : World α := { w₁ with iterators := w₁.iterators.erase i }
  have hfrees := hcas.frees hv.counted
  have hvalid : Valid c w' := by
    refine ⟨hcount.congr fun a => ?_, fun l hl => hv.list l (hcas.list ▸ hl), fun j jt hj => ?_⟩
    · have hf : w'.first = w.first := World.first_congr hcas.list
      have hit : w'.iterators = w.iterators.erase i := by rw [← hcas.iterators]
      simp only [World.roots, World.otherRoots, hf, hit]
    · by_cases hji : j = i
      · subst hji
        simp [w'] at hj
      · have hj : w₁.iterators.cell j = some jt := by
          rwa [Store.erase_cell_of_ne _ hji] at hj
        exact hv.iterators j jt (hcas.iterators ▸ hj)
  exact ⟨w', freed, by simp [slDestroyIterator, hi, hdes, hrun, w'],
    ⟨hvalid, hcas.shrinks, hfrees.of_eq rfl rfl, hcas.list⟩, by simp [w', hcas.iterators]⟩

end Cs214.SortedList
