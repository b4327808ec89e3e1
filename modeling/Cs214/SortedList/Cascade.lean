import Cs214.SortedList.References

/-!
# The cascade of `nodeDestroy`

`nodeDestroy` walks down the links from the node it is given as long as the node it visits
has a single reference, frees what it has visited and takes one reference off the node it
stops at. `Cascade` records this effect cell by cell, and `nodeDestroy_spec` shows that the
call terminates within the fuel, has this effect, and consumes exactly one reference.

The nodes that stay keep their items and their links (`Shrinks`), so every chain that starts
at a node that stays is the same before and after.
-/

namespace Cs214.SortedList

variable {α : Type} {c : Comparator α} {w w' w'' : World α} {ext : ℕ → ℕ} {a b : ℕ}
  {p q r : Option ℕ} {node : Node α} {l freed : List ℕ}

@[simp] theorem World.item_eq_some {x : α} :
    w.item a = some x ↔ ∃ node, w.nodes.cell a = some node ∧ node.data = x := by
  simp [World.item, Option.map_eq_some_iff]

/-- Nodes of `w'` are nodes of `w` with the same item and the same link. -/
def Shrinks (w w' : World α) : Prop :=
  ∀ a n', w'.nodes.cell a = some n' →
    ∃ n, w.nodes.cell a = some n ∧ n.data = n'.data ∧ n.next = n'.next

namespace Shrinks

theorem trans (h₁ : Shrinks w w') (h₂ : Shrinks w' w'') : Shrinks w w'' := by
  intro a n' hn'
  obtain ⟨n, hn, hd, hl⟩ := h₂ a n' hn'
  obtain ⟨m, hm, hd', hl'⟩ := h₁ a n hn
  exact ⟨m, hm, hd'.trans hd, hl'.trans hl⟩

/-- A path between nodes that stay was there before. -/
theorem path_before (h : Shrinks w w') (hp : w'.nodes.Path Node.next q p l) :
    w.nodes.Path Node.next q p l :=
  hp.congr fun a _ v hv => by
    obtain ⟨n, hn, -, hl⟩ := h a v hv
    exact ⟨n, hn, hl⟩

/-- A path from a node that stays is still there. -/
theorem path_after {R : Node α → Node α → Prop} (h : Shrinks w w')
    (hd : w'.nodes.Descends Node.next R) (hp : w.nodes.Path Node.next q p l)
    (hstart : ∀ a, p = some a → ∃ n, w'.nodes.cell a = some n) :
    w'.nodes.Path Node.next q p l := by
  induction hp with
  | nil => exact .nil
  | cons hv _ ih =>
    obtain ⟨n', hn'⟩ := hstart _ rfl
    obtain ⟨n, hn, -, hl⟩ := h _ n' hn'
    obtain rfl := Option.some.inj (hv.symm.trans hn)
    refine .cons hn' ?_
    rw [← hl]
    refine ih fun b hb => ?_
    obtain ⟨m, hm, -⟩ := hd _ n' b hn' (by rw [← hl, hb])
    exact ⟨m, hm⟩

/-- The item of a node that stays is the same. -/
theorem item_eq (h : Shrinks w w') (ha : ∃ n, w'.nodes.cell a = some n) :
    w'.item a = w.item a := by
  obtain ⟨n', hn'⟩ := ha
  obtain ⟨n, hn, hd, -⟩ := h a n' hn'
  simp [World.item, hn, hn', hd]

end Shrinks

/-- **The effect of `nodeDestroy`** on the pointer `p`: the nodes `freed` on the way from `p`
to `q` had a single reference and are freed, and `q` loses one reference. -/
structure Cascade (w : World α) (p : Option ℕ) (w' : World α) (q : Option ℕ)
    (freed : List ℕ) : Prop where
  path : w.nodes.Path Node.next q p freed
  last : ∀ a ∈ freed, ∀ node, w.nodes.cell a = some node → node.ptrCount = 1
  stop : ∀ b node, q = some b → w.nodes.cell b = some node → node.ptrCount ≠ 1
  cell : ∀ a, w'.nodes.cell a = if a ∈ freed then none
    else if q = some a then
      (w.nodes.cell a).map fun n => { n with ptrCount := n.ptrCount + -1 }
    else w.nodes.cell a
  destructed : w'.destructed = w.destructed ++ freed.filterMap w.item
  list : w'.list = w.list
  iterators : w'.iterators = w.iterators

namespace Cascade

theorem shrinks (h : Cascade w p w' q freed) : Shrinks w w' := by
  intro a n' hn'
  rw [h.cell a] at hn'
  split_ifs at hn' with hf hq
  · obtain ⟨n, hn, rfl⟩ := Option.map_eq_some_iff.mp hn'
    exact ⟨n, hn, rfl, rfl⟩
  · exact ⟨n', hn', rfl, rfl⟩

/-- Freed nodes are gone. -/
theorem cell_of_mem (h : Cascade w p w' q freed) (ha : a ∈ freed) :
    w'.nodes.cell a = none := by
  rw [h.cell a, if_pos ha]

/-- All other nodes stay. -/
theorem exists_of_notMem (h : Cascade w p w' q freed) (ha : a ∉ freed)
    (hn : w.nodes.cell a = some node) : ∃ n', w'.nodes.cell a = some n' := by
  rw [h.cell a, if_neg ha, hn]
  split_ifs
  · exact ⟨_, rfl⟩
  · exact ⟨_, rfl⟩

end Cascade

/-- What the last reference to a node leaves when it is given up: the item is destructed, and the
node freed. -/
def World.discard (w : World α) (a : ℕ) (x : α) : World α :=
  { w with nodes := w.nodes.erase a, destructed := w.destructed ++ [x] }

private theorem World.discard_cell {x : α} {v : Node α} :
    (w.discard a x).nodes.cell b = some v ↔ b ≠ a ∧ w.nodes.cell b = some v := by
  by_cases hba : b = a
  · subst hba
    simp [discard]
  · simp [discard, hba]

private theorem World.discard_cell_of_ne {x : α} (hba : b ≠ a) :
    (w.discard a x).nodes.cell b = w.nodes.cell b :=
  Store.erase_cell_of_ne _ hba

namespace Cascade

/-- No node has no effect. -/
private theorem nil (w : World α) : Cascade w none w none [] :=
  ⟨.nil, by simp, by simp, by simp, by simp, rfl, rfl⟩

/-- **The last reference**: the node goes, and its link is given up in turn. -/
theorem cons (hroots : Counted c (w.discard a node.data).nodes (ext + ref node.next))
    (hnode : w.nodes.cell a = some node) (h1 : node.ptrCount = 1)
    (h : Cascade (w.discard a node.data) node.next w' q freed) :
    Cascade w (some a) w' q (a :: freed) where
  path := .cons hnode (h.path.congr fun b _ v hv => ⟨v, (World.discard_cell.mp hv).2, rfl⟩)
  last := by
    intro b hb v hv
    by_cases hba : b = a
    · subst hba
      obtain rfl := Option.some.inj (hnode.symm.trans hv)
      exact h1
    · exact h.last b ((List.mem_cons.mp hb).resolve_left hba) v (World.discard_cell.mpr ⟨hba, hv⟩)
  stop := by
    intro b v hq hv
    have hba : b ≠ a := by
      rintro rfl
      -- the walk cannot come back to the node it has left
      obtain ⟨w₂, hw₂⟩ := hroots.descends.exists_cell_of_path (hq ▸ h.path) fun d hd => by
        refine hroots.roots d ?_
        simp [hd]
      exact (World.discard_cell.mp hw₂).1 rfl
    exact h.stop b v hq (World.discard_cell.mpr ⟨hba, hv⟩)
  cell := by
    intro b
    rw [h.cell b]
    by_cases hba : b = a
    · subst hba
      simp [World.discard]
    · simp [World.discard, hba]
  destructed := by
    have hitem : freed.filterMap (w.discard a node.data).item = freed.filterMap w.item := by
      refine List.filterMap_congr fun b hb => ?_
      obtain ⟨v, hv⟩ := h.path.exists_cell hb
      rw [World.item, World.item, World.discard_cell_of_ne (World.discard_cell.mp hv).1]
    rw [h.destructed, hitem]
    simp [World.item, hnode, World.discard]
  list := h.list
  iterators := h.iterators

/-- **Another reference is left**: the node stays, with one reference less. -/
theorem keep (hnode : w.nodes.cell a = some node) (h1 : node.ptrCount ≠ 1) :
    Cascade w (some a) (w.setNode a { node with ptrCount := node.ptrCount + -1 }) (some a) [] where
  path := .nil
  last := by simp
  stop := by
    intro b v hb hv
    obtain rfl := Option.some.inj hb
    obtain rfl := Option.some.inj (hnode.symm.trans hv)
    exact h1
  cell := by
    intro b
    by_cases hba : b = a
    · subst hba
      simp [World.setNode, hnode]
    · simp [World.setNode, hba, Ne.symm hba]
  destructed := by simp [World.setNode]
  list := rfl
  iterators := rfl

end Cascade

/-- **`nodeDestroy` consumes one reference**: given one reference to `p` on top of `ext`, it
terminates, has the cascade effect, and leaves the accounting with `ext`. The induction is on the
chain from `p`. -/
theorem nodeDestroy_spec {n : ℕ} (h : Counted c w.nodes (ext + ref p))
    (hl : w.nodes.Path Node.next none p l) (hn : l.length ≤ n) :
    ∃ w' q freed, nodeDestroy .func n w p = some (w', q) ∧ Cascade w p w' q freed ∧
      Counted c w'.nodes ext := by
  induction n generalizing w p l with
  | zero =>
    obtain rfl := List.length_eq_zero_iff.mp (Nat.le_zero.mp hn)
    obtain rfl := Store.Path.nil_iff.mp hl
    exact ⟨w, none, [], rfl, .nil w, h.congr fun a => by simp⟩
  | succ n ih =>
    rcases p with _ | a
    · exact ⟨w, none, [], rfl, .nil w, h.congr fun a => by simp⟩
    cases l with
    | nil => cases Store.Path.nil_iff.mp hl
    | cons a' l =>
    obtain ⟨ha', node, hnode, htail⟩ := Store.Path.cons_iff.mp hl
    obtain rfl := Option.some.inj ha'
    by_cases h1 : node.ptrCount = 1
    · have hfree : Counted c (w.discard a node.data).nodes (ext + ref node.next) :=
        h.free hnode h1
      have hnot : a ∉ l := h.descends.notMem_of_path hnode htail
      have htail' : (w.discard a node.data).nodes.Path Node.next none node.next l :=
        htail.congr fun b hb v hv =>
          ⟨v, World.discard_cell.mpr ⟨ne_of_mem_of_not_mem hb hnot, hv⟩, rfl⟩
      obtain ⟨w', q, freed, hrun, hcas, hcount⟩ := ih hfree htail' (by simpa using hn)
      refine ⟨w', q, a :: freed, ?_, .cons hfree hnode h1 hcas, hcount⟩
      simp only [nodeDestroy, hnode, Option.bind_eq_bind, Option.bind_some, h1, if_true,
        World.callDestruct, reduceCtorEq, if_false]
      exact hrun
    · refine ⟨w.setNode a { node with ptrCount := node.ptrCount + -1 }, some a, [], ?_,
        .keep hnode h1, h.release hnode h1⟩
      simp [nodeDestroy, hnode, h1, World.addPtr]

end Cs214.SortedList
