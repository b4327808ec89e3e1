import Cs214.SortedList.Cascade

/-!
# The invariant of the memory

`Valid c w` is what every reachable world satisfies: the counts of the nodes are right for
the references the list header and the iterators hold (`World.roots`), and header and
iterators carry the comparator and a destructor. It is the only invariant of the
development; order, absence of dangling pointers, absence of garbage and termination of all
loops follow from it.
-/

namespace Cs214.SortedList

variable {α : Type} {c : Comparator α} {w w' : World α} {ext : ℕ → ℕ} {a b i : ℕ}
  {p q : Option ℕ} {node : Node α} {it : SortedListIterator} {l l₁ l₂ : List ℕ} {x y : α}

/-- The test that an iterator rests on `a`. -/
def isAt (a : ℕ) (it : SortedListIterator) : Bool := it.current == some a

private theorem toNat_isAt (it : SortedListIterator) (a : ℕ) :
    (isAt a it).toNat = ref it.current a := by
  by_cases h : it.current = some a <;> simp [isAt, ref, h]

/-- The number of iterators that rest on `a`. -/
def resting (iterators : Store SortedListIterator) (a : ℕ) : ℕ := iterators.count (isAt a)

/-- The references held by the header and the open iterators. -/
def World.roots (w : World α) : ℕ → ℕ := ref w.first + resting w.iterators

/-- **The invariant.** -/
structure Valid (c : Comparator α) (w : World α) : Prop where
  counted : Counted c w.nodes w.roots
  list : ∀ l, w.list = some l → l.compare = c.compare ∧ l.destruct = .func
  iterators : ∀ i it, w.iterators.cell i = some it → it.destruct = .func

/-! ### Iterators as references -/

theorem resting_insert (h : w.iterators.cell i = some it) (it' : SortedListIterator) (a : ℕ) :
    resting (w.iterators.insert i it') a + ref it.current a
      = resting w.iterators a + ref it'.current a := by
  have := Store.count_insert (isAt a) it' h
  simpa only [resting, toNat_isAt] using this

theorem resting_create (h : w.iterators.cell i = none) (it' : SortedListIterator) (a : ℕ) :
    resting (w.iterators.insert i it') a = resting w.iterators a + ref it'.current a := by
  have := Store.count_insert_of_free (isAt a) it' h
  simpa only [resting, toNat_isAt] using this

theorem resting_erase (h : w.iterators.cell i = some it) (a : ℕ) :
    resting (w.iterators.erase i) a + ref it.current a = resting w.iterators a := by
  have := Store.count_erase (isAt a) h
  simpa only [resting, toNat_isAt] using this

/-- The references left when the one of iterator `i` is taken out. -/
def World.otherRoots (w : World α) (i : ℕ) : ℕ → ℕ := ref w.first + resting (w.iterators.erase i)

theorem roots_eq_otherRoots (h : w.iterators.cell i = some it) (a : ℕ) :
    (w.otherRoots i + ref it.current) a = w.roots a := by
  have := resting_erase h a
  simp only [World.otherRoots, World.roots, Pi.add_apply]
  omega

namespace Valid

/-- The first node is allocated. -/
theorem exists_first (h : Valid c w) (ha : w.first = some a) :
    ∃ node, w.nodes.cell a = some node := by
  refine h.counted.roots a ?_
  simp only [World.roots, Pi.add_apply, ha, ref_self]
  omega

/-- The node an iterator rests on is allocated. -/
theorem exists_current (h : Valid c w) (hi : w.iterators.cell i = some it)
    (ha : it.current = some a) : ∃ node, w.nodes.cell a = some node := by
  have := resting_erase hi a
  rw [ha, ref_self] at this
  refine h.counted.roots a ?_
  simp only [World.roots, Pi.add_apply]
  omega

/-- A linked node is followed by a node with a smaller item. -/
theorem exists_next (h : Valid c w) (ha : w.nodes.cell a = some node)
    (hb : node.next = some b) :
    ∃ m, w.nodes.cell b = some m ∧ c.gt node.data m.data :=
  h.counted.descends a node b ha hb

/-! ### The linked nodes -/

/-- `linked` is the chain from the header. -/
theorem path_linked (h : Valid c w) : w.nodes.Path Node.next none w.first w.linked :=
  h.counted.descends.path_trail fun _ ha => h.exists_first ha

/-- The chain from the header is `linked`. -/
theorem linked_eq (h : Valid c w) (hp : w.nodes.Path Node.next none w.first l) :
    w.linked = l :=
  h.counted.descends.trail_eq hp

theorem exists_of_mem_linked (h : Valid c w) (ha : a ∈ w.linked) :
    ∃ node, w.nodes.cell a = some node :=
  h.path_linked.exists_cell ha

theorem linked_nodup (h : Valid c w) : w.linked.Nodup :=
  h.counted.descends.nodup_of_path h.path_linked

theorem linked_length_lt_fuel (h : Valid c w) : w.linked.length < w.fuel :=
  Nat.lt_succ_of_le (h.path_linked.length_le_card h.linked_nodup)

/-- Items of linked nodes are the items of the list. -/
theorem mem_items : x ∈ w.items ↔ ∃ a ∈ w.linked, w.item a = some x :=
  List.mem_filterMap

/-- **The list is strictly descending.** -/
theorem items_pairwise (h : Valid c w) : w.items.Pairwise c.gt := by
  rw [World.items, List.pairwise_filterMap]
  refine (h.counted.descends.pairwise_of_path h.path_linked).imp fun {a b} hab x hx y hy => ?_
  obtain ⟨m, hm, rfl⟩ := World.item_eq_some.mp hx
  obtain ⟨n, hn, rfl⟩ := World.item_eq_some.mp hy
  exact hab m n hm hn

/-- The node behind a linked node is linked. -/
theorem next_mem_linked (h : Valid c w) (ha : a ∈ w.linked) (hn : w.nodes.cell a = some node)
    (hb : node.next = some b) : b ∈ w.linked := by
  obtain ⟨l₁, l₂, hl⟩ := List.append_of_mem ha
  obtain ⟨-, ht⟩ := (hl ▸ h.path_linked).split_at
  obtain ⟨-, v, hv, ht⟩ := Store.Path.cons_iff.mp ht
  obtain rfl := Option.some.inj (hn.symm.trans hv)
  rw [hb] at ht
  cases l₂ with
  | nil => cases Store.Path.nil_iff.mp ht
  | cons b' l₂ =>
    obtain ⟨hbb, -⟩ := Store.Path.cons_iff.mp ht
    obtain rfl := Option.some.inj hbb
    simp [hl]

/-- A linked node is the first one or behind another linked node. -/
theorem first_or_behind (h : Valid c w) (ha : a ∈ w.linked) :
    w.first = some a ∨
      ∃ b ∈ w.linked, ∃ m, w.nodes.cell b = some m ∧ m.next = some a := by
  obtain ⟨l₁, l₂, hl⟩ := List.append_of_mem ha
  obtain ⟨hp, -⟩ := (hl ▸ h.path_linked).split_at
  rcases List.eq_nil_or_concat l₁ with rfl | ⟨l₀, b, rfl⟩
  · exact .inl (Store.Path.nil_iff.mp hp)
  · rw [List.concat_eq_append] at hp hl
    obtain ⟨m, -, hm, hnext⟩ := hp.exists_last
    exact .inr ⟨b, by simp [hl], m, hm, hnext⟩

/-- Without a list nothing is linked. -/
theorem linked_eq_nil_of_no_list (hl : w.list = none) : w.linked = [] := by
  have hfirst : w.first = none := by simp [World.first, hl]
  rw [World.linked, hfirst, Store.trail]
  cases w.nodes.dom.card <;> rfl

end Valid

/-- The world `SLCreate` makes is valid and holds no item. -/
theorem valid_start (c : Comparator α) : Valid c (start c) where
  counted :=
    { descends := fun a v b h => by simp [start, slCreate] at h
      roots := fun a ha => by
        simp [start, slCreate, World.roots, World.first, resting] at ha
      count := fun a v h => by simp [start, slCreate] at h
      pos := fun a v h => by simp [start, slCreate] at h }
  list l h := by
    obtain rfl := Option.some.inj h
    exact ⟨rfl, rfl⟩
  iterators i it h := by simp [start, slCreate] at h

/-! ### Reachability through links -/

/-- `b` is visited when following links from `p`. -/
def Reaches (w : World α) (p : Option ℕ) (b : ℕ) : Prop :=
  ∃ l, w.nodes.Path Node.next (some b) p l

namespace Reaches

theorem refl (w : World α) (b : ℕ) : Reaches w (some b) b := ⟨[], .nil⟩

theorem head (ha : w.nodes.cell a = some node) (h : Reaches w node.next b) :
    Reaches w (some a) b := by
  obtain ⟨l, hl⟩ := h
  exact ⟨a :: l, .cons ha hl⟩

/-- What a node reaches is the node itself or reached from its link. -/
theorem cases_head (h : Reaches w p b) :
    p = some b ∨ ∃ a node, p = some a ∧ w.nodes.cell a = some node ∧ Reaches w node.next b := by
  obtain ⟨_ | ⟨a, l⟩, hl⟩ := h
  · exact .inl (Store.Path.nil_iff.mp hl)
  · obtain ⟨rfl, node, hn, ht⟩ := Store.Path.cons_iff.mp hl
    exact .inr ⟨a, node, rfl, hn, l, ht⟩

theorem trans (h₁ : Reaches w p a) (h₂ : Reaches w (some a) b) : Reaches w p b := by
  obtain ⟨l₁, h₁⟩ := h₁
  obtain ⟨l₂, h₂⟩ := h₂
  exact ⟨l₁ ++ l₂, h₁.append h₂⟩

/-- Nothing is reached from the null pointer. -/
theorem not_none (b : ℕ) : ¬Reaches w none b := by
  intro h
  rcases h.cases_head with h | ⟨a, node, h, -⟩ <;> cases h

end Reaches

namespace Valid

/-- What is reached from an allocated node is allocated. -/
theorem exists_of_reaches (h : Valid c w) (ha : ∃ m, w.nodes.cell a = some m)
    (hr : Reaches w (some a) b) : ∃ m, w.nodes.cell b = some m := by
  obtain ⟨l, hl⟩ := hr
  refine h.counted.descends.exists_cell_of_path hl fun d hd => ?_
  obtain rfl := Option.some.inj hd
  exact ha

/-- What is reached from a link is smaller than the node the link belongs to. -/
theorem gt_of_reaches (h : Valid c w) (ha : w.nodes.cell a = some node)
    (hr : Reaches w node.next b) {m : Node α} (hb : w.nodes.cell b = some m) :
    c.gt node.data m.data := by
  obtain ⟨l, hl⟩ := hr
  have hp : w.nodes.Path Node.next m.next node.next (l ++ [b]) :=
    hl.append (.cons hb .nil)
  exact h.counted.descends.rel_of_path ha hp (by simp) hb

/-- The linked nodes are the nodes reached from the header. -/
theorem mem_linked_iff (h : Valid c w) : a ∈ w.linked ↔ Reaches w w.first a := by
  constructor
  · intro ha
    obtain ⟨l₁, l₂, hl⟩ := List.append_of_mem ha
    exact ⟨l₁, (hl ▸ h.path_linked).split_at.1⟩
  · rintro ⟨l, hl⟩
    have hcell : ∃ m, w.nodes.cell a = some m :=
      h.counted.descends.exists_cell_of_path hl fun d hd => h.exists_first hd
    obtain ⟨m, hm⟩ := hcell
    obtain ⟨l', hl'⟩ := h.counted.descends.exists_chain hm
    rw [h.linked_eq (hl.append hl')]
    obtain ⟨t, rfl⟩ : ∃ t, l' = a :: t := by
      cases l' with
      | nil => cases Store.Path.nil_iff.mp hl'
      | cons a' t =>
        obtain ⟨ha, -⟩ := Store.Path.cons_iff.mp hl'
        exact ⟨t, by rw [Option.some.inj ha]⟩
    simp

/-- A linked node reaches exactly the linked nodes that are not larger. -/
theorem reaches_of_gt (h : Valid c w) {m : Node α} (ha : a ∈ w.linked) (hb : b ∈ w.linked)
    (hn : w.nodes.cell a = some node) (hm : w.nodes.cell b = some m)
    (hgt : c.gt node.data m.data) : Reaches w node.next b := by
  obtain ⟨l₁, l₂, hl⟩ := List.append_of_mem ha
  obtain ⟨-, ht⟩ := (hl ▸ h.path_linked).split_at
  obtain ⟨-, v, hv, ht⟩ := Store.Path.cons_iff.mp ht
  obtain rfl := Option.some.inj (hn.symm.trans hv)
  rw [hl] at hb
  rcases List.mem_append.mp hb with hb | hb
  · -- an earlier node would be larger
    have hpw := h.counted.descends.pairwise_of_path h.path_linked
    rw [hl] at hpw
    have := (List.pairwise_append.mp hpw).2.2 b hb a (by simp) m node hm hn
    exact absurd (trans_of c.gt hgt this) (irrefl_of c.gt _)
  · rcases List.mem_cons.mp hb with rfl | hb
    · obtain rfl := Option.some.inj (hn.symm.trans hm)
      exact absurd hgt (irrefl_of c.gt _)
    · obtain ⟨k₁, k₂, rfl⟩ := List.append_of_mem hb
      exact ⟨k₁, ht.split_at.1⟩

end Valid

/-! ### Worlds with fewer nodes -/

/-- When nodes only go and the header keeps its first node, the list is the same. -/
theorem Shrinks.linked_eq (h : Shrinks w w') (hv : Valid c w) (hv' : Valid c w')
    (hfirst : w'.first = w.first) : w'.linked = w.linked :=
  (hv.linked_eq (hfirst ▸ h.path_before hv'.path_linked)).symm

theorem Shrinks.items_eq (h : Shrinks w w') (hv : Valid c w) (hv' : Valid c w')
    (hfirst : w'.first = w.first) : w'.items = w.items := by
  rw [World.items, World.items, h.linked_eq hv hv' hfirst]
  refine List.filterMap_congr fun a ha => h.item_eq ?_
  exact hv'.exists_of_mem_linked (h.linked_eq hv hv' hfirst ▸ ha)

/-- Reachability from a node that stays is kept. -/
theorem Shrinks.reaches (h : Shrinks w w') (hv' : Valid c w')
    (ha : ∃ m, w'.nodes.cell a = some m) (hr : Reaches w (some a) b) :
    Reaches w' (some a) b := by
  obtain ⟨l, hl⟩ := hr
  refine ⟨l, h.path_after hv'.counted.descends hl fun d hd => ?_⟩
  obtain rfl := Option.some.inj hd
  exact ha

end Cs214.SortedList
