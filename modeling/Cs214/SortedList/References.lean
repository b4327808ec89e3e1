import Cs214.SortedList.Model

/-!
# Reference counts

`Counted c nodes ext` is the accounting invariant of the node store: links never dangle and
lead to smaller items, every `ptrCount` is positive, and it equals the number of nodes
linked to the node plus `ext`, the number of references held outside the store. The list
header and the iterators hold such references (`World.roots`), and so does a C function that
is about to give one up.

The five pointer moves of the file are one lemma each, stated by what they do to `ext`:
`Counted.retain` (`ptrCount++`), `Counted.release` (`ptrCount--`), `Counted.free` (a last
reference is dropped and the reference the node held becomes the caller's),
`Counted.relink` (`a->next = q`) and `Counted.create`. Every function of the file is a
composition of these, and `nodeDestroy_spec` is the first: it consumes one reference.
-/

namespace Cs214

/-- The items a comparator calls larger. -/
def Comparator.gt {α : Type} (c : Comparator α) (x y : α) : Prop := c.compare x y = 1

namespace Comparator

variable {α : Type} (c : Comparator α)

instance : IsStrictOrder α c.gt where
  irrefl a h := by
    have := c.swap a a
    rw [gt] at h
    omega
  trans a b d := c.trans a b d

/-- The facts that the contract of a comparator gives. -/
theorem compare_self (a : α) : c.compare a a = 0 := by
  have := c.swap a a
  omega

/-- Neither greater nor equal means smaller. -/
theorem gt_of_not {x y : α} (h : ¬c.gt x y) (h₀ : c.compare x y ≠ 0) : c.gt y x := by
  have hr := c.range x y
  have hs := c.swap x y
  rw [gt] at h ⊢
  omega

theorem compare_ne_zero_of_gt {x y : α} (h : c.gt x y) : c.compare x y ≠ 0 := by
  rw [gt] at h
  omega

theorem compare_comm {x y : α} : c.compare x y = 0 ↔ c.compare y x = 0 := by
  have := c.swap x y
  omega

/-- Equal items stand behind the same items. -/
theorem gt_congr_right {x y z : α} (h : c.compare x y = 0) : c.gt z x ↔ c.gt z y := by
  have hx := c.swap x z
  have hy := c.swap y z
  have := c.congr_left x y z h
  rw [gt, gt]
  omega

end Comparator

namespace SortedList

variable {α : Type} {c : Comparator α} {nodes : Store (Node α)} {ext : ℕ → ℕ} {a b : ℕ}
  {p q : Option ℕ} {node : Node α} {x : α}

/-- The order of nodes by their items. -/
def Node.gt (c : Comparator α) (m n : Node α) : Prop := c.gt m.data n.data

instance : IsStrictOrder (Node α) (Node.gt c) where
  irrefl a h := irrefl_of c.gt a.data h
  trans _ _ _ h₁ h₂ := trans_of c.gt h₁ h₂

/-- The contribution of one pointer to the number of references of an address. -/
def ref (p : Option ℕ) (a : ℕ) : ℕ := if p = some a then 1 else 0

@[simp] theorem ref_none (a : ℕ) : ref none a = 0 := rfl

@[simp] theorem ref_self (a : ℕ) : ref (some a) a = 1 := if_pos rfl

theorem ref_of_ne (h : p ≠ some a) : ref p a = 0 := if_neg h

/-- The test that a node is linked to `a`. -/
def Node.linksTo (a : ℕ) (n : Node α) : Bool := n.next == some a

private theorem toNat_linksTo (n : Node α) (a : ℕ) : (n.linksTo a).toNat = ref n.next a := by
  by_cases h : n.next = some a <;> simp [Node.linksTo, ref, h]

/-- The number of nodes linked to `a`. -/
def inLinks (nodes : Store (Node α)) (a : ℕ) : ℕ := nodes.count (Node.linksTo a)

/-- **Reference accounting**: `ext a` references to `a` are held outside the store. -/
structure Counted (c : Comparator α) (nodes : Store (Node α)) (ext : ℕ → ℕ) : Prop where
  descends : nodes.Descends Node.next (Node.gt c)
  roots : ∀ a, 0 < ext a → ∃ node, nodes.cell a = some node
  count : ∀ a node, nodes.cell a = some node → node.ptrCount = ext a + inLinks nodes a
  pos : ∀ a node, nodes.cell a = some node → 0 < node.ptrCount

/-- Reading the number of references as a function of the address only. -/
theorem Counted.congr {ext' : ℕ → ℕ} (h : Counted c nodes ext) (he : ∀ a, ext' a = ext a) :
    Counted c nodes ext' := by
  obtain rfl : ext' = ext := funext he
  exact h

/-! ### How the moves change the links to an address -/

/-- The links into a node when another one is replaced, created or erased. -/
private theorem inLinks_insert (h : nodes.cell a = some node) (node' : Node α) (b : ℕ) :
    inLinks (nodes.insert a node') b + ref node.next b = inLinks nodes b + ref node'.next b := by
  have := Store.count_insert (Node.linksTo b) node' h
  simpa only [inLinks, toNat_linksTo] using this

private theorem inLinks_create (h : nodes.cell a = none) (node' : Node α) (b : ℕ) :
    inLinks (nodes.insert a node') b = inLinks nodes b + ref node'.next b := by
  have := Store.count_insert_of_free (Node.linksTo b) node' h
  simpa only [inLinks, toNat_linksTo] using this

private theorem inLinks_erase (h : nodes.cell a = some node) (b : ℕ) :
    inLinks (nodes.erase a) b + ref node.next b = inLinks nodes b := by
  have := Store.count_erase (Node.linksTo b) h
  simpa only [inLinks, toNat_linksTo] using this

/-- Nothing is linked to an address without a node. -/
private theorem Counted.inLinks_eq_zero (h : Counted c nodes ext) (ha : nodes.cell a = none) :
    inLinks nodes a = 0 := by
  refine Store.count_eq_zero_iff.mpr fun b m hm => ?_
  by_contra hlink
  obtain ⟨w, hw, -⟩ := h.descends b m a hm (by simpa [Node.linksTo] using hlink)
  simp [ha] at hw

/-! ### The pointer moves -/

/-- A change of the count alone keeps links and order. -/
private theorem descends_setCount (h : nodes.Descends Node.next (Node.gt c))
    (ha : nodes.cell a = some node) (k : ℤ) :
    (nodes.insert a { node with ptrCount := k }).Descends Node.next (Node.gt c) := by
  intro b m d hm hd
  obtain ⟨m', hcell, heq⟩ := Store.exists_of_insert_cell (fun n => (n.next, n.data)) ha hm rfl
  obtain ⟨hnext, hdata⟩ := Prod.mk.inj heq
  obtain ⟨w, hw, hgt⟩ := h b m' d hcell (hnext.trans hd)
  obtain ⟨w', hw', hdata'⟩ :=
    Store.exists_insert_cell (v := { node with ptrCount := k }) Node.data ha hw rfl
  exact ⟨w', hw', by rwa [Node.gt, hdata', ← hdata]⟩

/-- Overwriting a node by one with the same link leaves all links as they are. -/
private theorem inLinks_setCount (ha : nodes.cell a = some node) (k : ℤ) (b : ℕ) :
    inLinks (nodes.insert a { node with ptrCount := k }) b = inLinks nodes b := by
  have := inLinks_insert ha { node with ptrCount := k } b
  simpa using this

/-- The count of a node moves together with the references held to it. -/
private theorem Counted.setCount {ext' : ℕ → ℕ} (h : Counted c nodes ext)
    (ha : nodes.cell a = some node) {k : ℤ} (hk : k = ext' a + inLinks nodes a) (hpos : 0 < k)
    (hext : ∀ b, b ≠ a → ext' b = ext b) :
    Counted c (nodes.insert a { node with ptrCount := k }) ext' where
  descends := descends_setCount h.descends ha k
  roots b hb := by
    by_cases hba : b = a
    · subst hba
      exact ⟨_, Store.insert_cell_self _ _ _⟩
    · rw [Store.insert_cell_of_ne _ _ hba]
      exact h.roots b (by rwa [hext b hba] at hb)
  count b m hm := by
    rw [inLinks_setCount ha]
    rcases Store.insert_cell_eq_some.mp hm with ⟨rfl, rfl⟩ | ⟨hba, hm⟩
    · exact hk
    · rw [hext b hba]
      exact h.count b m hm
  pos b m hm := by
    rcases Store.insert_cell_eq_some.mp hm with ⟨-, rfl⟩ | ⟨-, hm⟩
    · exact hpos
    · exact h.pos b m hm

/-- **Retain** (`a->ptrCount++`): one more reference is held to `a`. -/
theorem Counted.retain (h : Counted c nodes ext) (ha : nodes.cell a = some node) :
    Counted c (nodes.insert a { node with ptrCount := node.ptrCount + 1 })
      (ext + ref (some a)) := by
  have hc := h.count a node ha
  have hp := h.pos a node ha
  refine h.setCount ha ?_ (by omega) fun b hb => ?_
  · simp only [Pi.add_apply, ref_self]
    push_cast
    omega
  · simp [ref_of_ne (p := some a) (a := b) (by simpa using hb.symm)]

/-- **Release** (`a->ptrCount--`): a held reference that is not the last one is given up. -/
theorem Counted.release (h : Counted c nodes (ext + ref (some a)))
    (ha : nodes.cell a = some node) (h1 : node.ptrCount ≠ 1) :
    Counted c (nodes.insert a { node with ptrCount := node.ptrCount + -1 }) ext := by
  have hc := h.count a node ha
  have hp := h.pos a node ha
  simp only [Pi.add_apply, ref_self] at hc
  push_cast at hc
  refine h.setCount ha (by omega) (by omega) fun b hb => ?_
  simp [ref_of_ne (p := some a) (a := b) (by simpa using hb.symm)]

/-- A node whose only reference is a held one is linked from nowhere. -/
theorem Counted.inLinks_of_last (h : Counted c nodes (ext + ref (some a)))
    (ha : nodes.cell a = some node) (h1 : node.ptrCount = 1) :
    ext a = 0 ∧ inLinks nodes a = 0 := by
  have hc := h.count a node ha
  simp only [Pi.add_apply, ref_self] at hc
  push_cast at hc
  omega

/-- What the caller or the node `a` refers to is a node. -/
private theorem Counted.exists_of_roots {ext' : ℕ → ℕ} (h : Counted c nodes (ext + ext'))
    (ha : nodes.cell a = some node) (hb : 0 < (ext + ref node.next) b) :
    ∃ m, nodes.cell b = some m := by
  by_cases hnext : node.next = some b
  · obtain ⟨w, hw, -⟩ := h.descends a node b ha hnext
    exact ⟨w, hw⟩
  · refine h.roots b ?_
    simp only [Pi.add_apply, ref_of_ne hnext] at hb ⊢
    omega

/-- **Free**: the last reference to `a` is given up and the node is freed; the reference it
held to its successor is now the caller's. -/
theorem Counted.free (h : Counted c nodes (ext + ref (some a)))
    (ha : nodes.cell a = some node) (h1 : node.ptrCount = 1) :
    Counted c (nodes.erase a) (ext + ref node.next) := by
  obtain ⟨hext, hin⟩ := h.inLinks_of_last ha h1
  have hnolink : ∀ b m, nodes.cell b = some m → m.next ≠ some a := by
    intro b m hm hnext
    have := Store.count_eq_zero_iff.mp hin b m hm
    simp [Node.linksTo, hnext] at this
  refine ⟨?_, ?_, ?_, ?_⟩
  · intro b m d hm hd
    obtain ⟨-, hm⟩ := Store.erase_cell_eq_some.mp hm
    obtain ⟨w, hw, hgt⟩ := h.descends b m d hm hd
    exact ⟨w, Store.erase_cell_eq_some.mpr ⟨fun hda => hnolink b m hm (hda ▸ hd), hw⟩, hgt⟩
  · intro b hb
    -- the node is not its own successor, so nothing refers to it any more
    have hba : b ≠ a := by
      rintro rfl
      have hself : ref node.next b = 0 := ref_of_ne (hnolink b node ha)
      simp [hext, hself] at hb
    rw [Store.erase_cell_of_ne _ hba]
    exact h.exists_of_roots ha hb
  · intro b m hm
    obtain ⟨hba, hm⟩ := Store.erase_cell_eq_some.mp hm
    have hc := h.count b m hm
    have hl := inLinks_erase ha b
    have hr : ref (some a) b = 0 := ref_of_ne (by simpa using hba.symm)
    simp only [Pi.add_apply, hr] at hc ⊢
    omega
  · intro b m hm
    exact h.pos b m (Store.erase_cell_eq_some.mp hm).2

/-- **Relink** (`a->next = q`): the caller's reference to `q` becomes the link of `a`, and
the reference the old link held becomes the caller's. -/
theorem Counted.relink (h : Counted c nodes (ext + ref q)) (ha : nodes.cell a = some node)
    (hgt : ∀ b m, q = some b → nodes.cell b = some m → c.gt node.data m.data) :
    Counted c (nodes.insert a { node with next := q }) (ext + ref node.next) := by
  have hkeep : ∀ {b m}, nodes.cell b = some m → ∃ m',
      (nodes.insert a { node with next := q }).cell b = some m' ∧ m'.data = m.data :=
    fun hm => Store.exists_insert_cell Node.data ha hm rfl
  refine ⟨?_, ?_, ?_, ?_⟩
  · intro b m d hm hd
    rcases Store.insert_cell_eq_some.mp hm with ⟨rfl, rfl⟩ | ⟨-, hm⟩
    · -- the new link leads to a node the caller referred to
      obtain rfl : q = some d := hd
      obtain ⟨w, hw⟩ := h.roots d (by simp)
      obtain ⟨w', hw', hdata⟩ := hkeep hw
      exact ⟨w', hw', by rw [Node.gt, hdata]; exact hgt d w rfl hw⟩
    · obtain ⟨w, hw, hgt'⟩ := h.descends b m d hm hd
      obtain ⟨w', hw', hdata⟩ := hkeep hw
      exact ⟨w', hw', by rw [Node.gt, hdata]; exact hgt'⟩
  · intro b hb
    obtain ⟨m, hm⟩ := h.exists_of_roots ha hb
    obtain ⟨m', hm', -⟩ := hkeep hm
    exact ⟨m', hm'⟩
  · intro b m hm
    obtain ⟨m', hm', hcount⟩ := Store.exists_of_insert_cell Node.ptrCount ha hm rfl
    have hc := h.count b m' hm'
    have hl := inLinks_insert ha { node with next := q } b
    simp only [Pi.add_apply] at hc hl ⊢
    omega
  · intro b m hm
    obtain ⟨m', hm', hcount⟩ := Store.exists_of_insert_cell Node.ptrCount ha hm rfl
    exact hcount ▸ h.pos b m' hm'

/-- **Create** (`nodeCreate`): the new node has one reference, held by the caller. -/
theorem Counted.create (h : Counted c nodes ext) (ha : nodes.cell a = none) (x : α) :
    Counted c (nodes.insert a ⟨1, x, none⟩) (ext + ref (some a)) := by
  have hold : ∀ b m, nodes.cell b = some m →
      (nodes.insert a ⟨1, x, none⟩).cell b = some m := by
    intro b m hm
    rw [Store.insert_cell_of_ne, hm]
    rintro rfl
    simp [ha] at hm
  have hext : ext a = 0 := by
    by_contra hne
    obtain ⟨m, hm⟩ := h.roots a (Nat.pos_of_ne_zero hne)
    simp [ha] at hm
  refine ⟨?_, ?_, ?_, ?_⟩
  · intro b m d hm hd
    rcases Store.insert_cell_eq_some.mp hm with ⟨-, rfl⟩ | ⟨-, hm⟩
    · cases hd
    · obtain ⟨w, hw, hgt⟩ := h.descends b m d hm hd
      exact ⟨w, hold d w hw, hgt⟩
  · intro b hb
    by_cases hba : b = a
    · subst hba
      exact ⟨_, Store.insert_cell_self _ _ _⟩
    · have hr : ref (some a) b = 0 := ref_of_ne (by simpa using Ne.symm hba)
      obtain ⟨m, hm⟩ := h.roots b (by simpa [hr] using hb)
      exact ⟨m, hold b m hm⟩
  · intro b m hm
    have hl := inLinks_create ha ⟨1, x, none⟩ b
    simp only [ref_none] at hl
    rcases Store.insert_cell_eq_some.mp hm with ⟨rfl, rfl⟩ | ⟨hba, hm⟩
    · -- no node is linked to a fresh one
      have := h.inLinks_eq_zero ha
      simp only [Pi.add_apply, ref_self]
      omega
    · have hr : ref (some a) b = 0 := ref_of_ne (by simpa using hba.symm)
      have hc := h.count b m hm
      simp only [Pi.add_apply, hr]
      omega
  · intro b m hm
    rcases Store.insert_cell_eq_some.mp hm with ⟨-, rfl⟩ | ⟨-, hm⟩
    · exact Int.one_pos
    · exact h.pos b m hm

end SortedList

end Cs214
