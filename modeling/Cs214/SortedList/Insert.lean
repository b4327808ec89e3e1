import Cs214.SortedList.Valid

/-!
# `SLInsert`

The loop of `SLInsert` passes the nodes with larger items. Its three successful exits (at
the end of the list, in front of the first node, between two nodes) write the same thing,
`Splice`: the new node is linked to what follows the larger nodes, and the last larger node,
or the header, is linked to the new node. `slInsert_spec` is the resulting specification:
the call answers `0` and changes nothing when an equal item is listed, and otherwise answers
`1` and has the effect `Inserts`.
-/

namespace Cs214.SortedList

variable {α : Type} {c : Comparator α} {w w' : World α} {a b addr : ℕ}
  {p q : Option ℕ} {node : Node α} {l l₁ l₂ : List ℕ} {sl : SortedList α} {x y : α}

/-- **The effect of a successful insertion** of `x` at `addr`, behind the nodes `l₁` and in
front of the nodes `l₂`. -/
structure Inserts (c : Comparator α) (w : World α) (x : α) (addr : ℕ) (w' : World α)
    (l₁ l₂ : List ℕ) : Prop where
  valid : Valid c w'
  fresh : w.nodes.cell addr = none
  linked_before : w.linked = l₁ ++ l₂
  linked : w'.linked = l₁ ++ addr :: l₂
  item : w'.item addr = some x
  item_of_ne : ∀ a, a ≠ addr → w'.item a = w.item a
  reaches : ∀ p b, Reaches w p b → Reaches w' p b
  list : w'.list.isSome = w.list.isSome
  iterators : w'.iterators = w.iterators
  destructed : w'.destructed = w.destructed

/-- The nodes after `x` has been linked in at `addr`, between `p` and `q`. -/
def spliced (w : World α) (x : α) (addr : ℕ) (p q : Option ℕ) (a : ℕ) : Option (Node α) :=
  if a = addr then some ⟨1, x, q⟩
  else if p = some a then (w.nodes.cell a).map fun n => { n with next := some addr }
  else w.nodes.cell a

/-- What all successful exits of the loop write. -/
structure Splice (w : World α) (sl : SortedList α) (x : α) (addr : ℕ) (p q : Option ℕ)
    (w' : World α) : Prop where
  cell : ∀ a, w'.nodes.cell a = spliced w x addr p q a
  list : w'.list = some (if p = none then { sl with first := some addr } else sl)
  iterators : w'.iterators = w.iterators
  destructed : w'.destructed = w.destructed

namespace Splice

/-- The store after a splice behind the node `b`. -/
private theorem nodes_eq_behind (h : Splice w sl x addr (some b) q w')
    (hb : w.nodes.cell b = some node) (hne : b ≠ addr) :
    w'.nodes = ((w.nodes.insert addr ⟨1, x, none⟩).insert b
      { node with next := some addr }).insert addr ⟨1, x, q⟩ := by
  ext1 a
  rw [h.cell a, spliced]
  by_cases ha : a = addr
  · simp [ha]
  · by_cases hba : b = a
    · subst hba
      simp [hne, hb]
    · simp [ha, hba, Ne.symm hba]

/-- The store after a splice in front of the list. -/
private theorem nodes_eq_front (h : Splice w sl x addr none q w') :
    w'.nodes = (w.nodes.insert addr ⟨1, x, none⟩).insert addr ⟨1, x, q⟩ := by
  ext1 a
  rw [h.cell a, spliced]
  by_cases ha : a = addr <;> simp [ha]

/-- The accounting after a splice. The new node takes over the reference to `q`, and the
reference to the new node goes to the node behind which it stands, or to the header. -/
private theorem counted (h : Splice w sl x addr p q w') (hv : Valid c w) (hsl : w.list = some sl)
    (hfresh : w.nodes.cell addr = none) (hp₁ : w.nodes.Path Node.next q w.first l₁)
    (hlast : p = l₁.getLast?)
    (hgt₁ : ∀ a ∈ l₁, ∀ n, w.nodes.cell a = some n → c.gt n.data x)
    (hgt₂ : ∀ b n, q = some b → w.nodes.cell b = some n → c.gt x n.data) :
    Counted c w'.nodes w'.roots := by
  have hfirst : w.first = sl.first := by simp [World.first, hsl]
  have hqa : ∀ b, q = some b → b ≠ addr := by
    rintro b hq rfl
    have hex : ∃ m, w.nodes.cell b = some m := by
      refine hv.counted.descends.exists_cell_of_path (hq ▸ hp₁) fun d hd => hv.exists_first hd
    simp [hfresh] at hex
  -- the new node may be linked to `q` in every store that has the items of the old nodes
  have hgt₂' {s : Store (Node α)} (hold : ∀ b n, b ≠ addr → s.cell b = some n →
      ∃ m, w.nodes.cell b = some m ∧ m.data = n.data) :
      ∀ b n, q = some b → s.cell b = some n → c.gt x n.data := by
    intro b n hq hn
    obtain ⟨m, hm, hd⟩ := hold b n (hqa b hq) hn
    rw [← hd]
    exact hgt₂ b m hq hm
  rcases List.eq_nil_or_concat l₁ with rfl | ⟨l₀, b, rfl⟩
  · -- in front of the list: the header's reference moves to the new node
    obtain rfl : p = none := hlast
    have hq : q = w.first := (Store.Path.nil_iff.mp hp₁).symm
    have hcreate := hv.counted.create hfresh x
    have hsplit : Counted c (w.nodes.insert addr ⟨1, x, none⟩)
        ((ref (some addr) + resting w.iterators) + ref q) :=
      hcreate.congr fun a => by
        simp only [World.roots, Pi.add_apply, hq]
        omega
    have hre := hsplit.relink (Store.insert_cell_self _ _ _) (hgt₂' fun b n hb hn =>
      ⟨n, (Store.insert_cell_of_ne _ _ hb).symm.trans hn, rfl⟩)
    rw [h.nodes_eq_front]
    refine hre.congr fun a => ?_
    simp [World.roots, World.first, h.list, h.iterators]
  · -- behind `b`: its link moves to the new node
    rw [List.concat_eq_append] at hp₁ hlast hgt₁
    obtain rfl : p = some b := by simpa using hlast
    obtain ⟨node, -, hnode, hnext⟩ := hp₁.exists_last
    have hne : b ≠ addr := by
      rintro rfl
      simp [hfresh] at hnode
    have hcreate := hv.counted.create hfresh x
    have hnode' : (w.nodes.insert addr (⟨1, x, none⟩ : Node α)).cell b = some node := by
      rw [Store.insert_cell_of_ne _ _ hne, hnode]
    have hre₁ := hcreate.relink hnode' fun d n hd hn => by
      obtain rfl := Option.some.inj hd
      rw [Store.insert_cell_self] at hn
      obtain rfl := Option.some.inj hn
      exact hgt₁ b (by simp) node hnode
    rw [hnext] at hre₁
    have haddr : ((w.nodes.insert addr (⟨1, x, none⟩ : Node α)).insert b
        { node with next := some addr }).cell addr = some ⟨1, x, none⟩ := by
      rw [Store.insert_cell_of_ne _ _ hne.symm, Store.insert_cell_self]
    have hre₂ := hre₁.relink haddr (hgt₂' fun d n hd hn => by
      obtain ⟨m, hm, hdata⟩ := Store.exists_of_insert_cell Node.data hnode' hn rfl
      exact ⟨m, (Store.insert_cell_of_ne _ _ hd).symm.trans hm, hdata⟩)
    rw [h.nodes_eq_behind hnode hne]
    refine hre₂.congr fun a => ?_
    simp [World.roots, World.first, h.list, h.iterators, hsl]

/-- A path of the old store is extended by the new node where it passes `p`. -/
private theorem reaches (h : Splice w sl x addr p q w') (hfresh : w.nodes.cell addr = none)
    (hp : ∀ b n, p = some b → w.nodes.cell b = some n → n.next = q) {r : Option ℕ} {b : ℕ}
    (hr : Reaches w r b) : Reaches w' r b := by
  obtain ⟨l, hl⟩ := hr
  induction hl with
  | nil => exact .refl w' b
  | @cons a v l hv _ ih =>
    have haddr : a ≠ addr := by
      rintro rfl
      simp [hfresh] at hv
    have hcell := h.cell a
    rw [spliced, if_neg haddr] at hcell
    by_cases hpa : p = some a
    · rw [if_pos hpa, hv] at hcell
      have hnew : w'.nodes.cell addr = some ⟨1, x, q⟩ := by rw [h.cell, spliced, if_pos rfl]
      refine .head hcell (.head hnew ?_)
      rw [hp a v hpa hv] at ih
      exact ih
    · rw [if_neg hpa, hv] at hcell
      exact .head hcell ih

/-- The chain after a splice. -/
private theorem path (h : Splice w sl x addr p q w') (hsl : w.list = some sl)
    (hp₁ : w.nodes.Path Node.next q w.first l₁) (hp₂ : w.nodes.Path Node.next none q l₂)
    (hlast : p = l₁.getLast?) (hnot : ∀ a ∈ l₁ ++ l₂, a ≠ addr) (hnd : (l₁ ++ l₂).Nodup) :
    w'.nodes.Path Node.next none w'.first (l₁ ++ addr :: l₂) := by
  have hnew : w'.nodes.cell addr = some ⟨1, x, q⟩ := by rw [h.cell, spliced, if_pos rfl]
  have hother : ∀ a, a ≠ addr → p ≠ some a → w'.nodes.cell a = w.nodes.cell a := by
    intro a ha hpa
    rw [h.cell, spliced, if_neg ha, if_neg hpa]
  have htail : w'.nodes.Path Node.next none q l₂ := by
    refine hp₂.congr fun a ha v hv' => ⟨v, ?_, rfl⟩
    rw [hother a (hnot a (by simp [ha])), hv']
    rintro rfl
    exact (List.disjoint_of_nodup_append hnd) (List.mem_of_getLast? hlast.symm) ha
  rcases List.eq_nil_or_concat l₁ with rfl | ⟨l₀, b, rfl⟩
  · -- the new node is the first one
    obtain rfl : p = none := hlast
    have hfirst : w'.first = some addr := by simp [World.first, h.list]
    rw [hfirst]
    exact .cons hnew htail
  · -- the new node follows `b`
    rw [List.concat_eq_append] at hp₁ hlast hnot hnd
    obtain rfl : p = some b := by simpa using hlast
    obtain ⟨node, hp₀, hnode, -⟩ := hp₁.exists_last
    have hfirst : w'.first = w.first := by simp [World.first, h.list, hsl]
    have hb' : w'.nodes.cell b = some { node with next := some addr } := by
      rw [h.cell, spliced, if_neg (hnot b (by simp)), if_pos rfl, hnode]
      rfl
    have hp₀' : w'.nodes.Path Node.next (some b) w.first l₀ := by
      refine hp₀.congr fun a ha v hv' => ⟨v, ?_, rfl⟩
      rw [hother a (hnot a (by simp [ha])), hv']
      intro hba
      obtain rfl := Option.some.inj hba
      have := List.nodup_append.mp (List.nodup_append.mp hnd).1
      exact this.2.2 b ha b (by simp) rfl
    rw [hfirst, List.concat_eq_append, List.append_assoc]
    exact hp₀'.append (.cons hb' (.cons hnew htail))

/-- **All successful exits** have the effect of an insertion. -/
theorem inserts (h : Splice w sl x addr p q w') (hv : Valid c w) (hsl : w.list = some sl)
    (hfresh : w.nodes.cell addr = none) (hp₁ : w.nodes.Path Node.next q w.first l₁)
    (hp₂ : w.nodes.Path Node.next none q l₂) (hlast : p = l₁.getLast?)
    (hgt₁ : ∀ a ∈ l₁, ∀ n, w.nodes.cell a = some n → c.gt n.data x)
    (hgt₂ : ∀ b n, q = some b → w.nodes.cell b = some n → c.gt x n.data) :
    Inserts c w x addr w' l₁ l₂ := by
  have hcount := h.counted hv hsl hfresh hp₁ hlast hgt₁ hgt₂
  have hvalid : Valid c w' := by
    refine ⟨hcount, fun l hl => ?_, fun i it hi => hv.iterators i it (h.iterators ▸ hi)⟩
    rw [h.list] at hl
    obtain rfl := Option.some.inj hl
    have := hv.list sl hsl
    split_ifs <;> exact this
  have hbefore : w.linked = l₁ ++ l₂ := hv.linked_eq (hp₁.append hp₂)
  have hnot : ∀ a ∈ l₁ ++ l₂, a ≠ addr := by
    rintro a ha rfl
    obtain ⟨m, hm⟩ := hv.exists_of_mem_linked (hbefore ▸ ha)
    simp [hfresh] at hm
  have hchain := h.path hsl hp₁ hp₂ hlast hnot (hbefore ▸ hv.linked_nodup)
  refine ⟨hvalid, hfresh, hbefore, hvalid.linked_eq hchain, ?_, fun a ha => ?_, ?_, ?_,
    h.iterators, h.destructed⟩
  · rw [World.item, h.cell, spliced, if_pos rfl]
    rfl
  · rw [World.item, h.cell, spliced, if_neg ha, World.item]
    split_ifs
    · simp [Option.map_map, Function.comp_def]
    · rfl
  · refine fun r b hr => h.reaches hfresh (fun d n hd hn => ?_) hr
    rw [hlast] at hd
    rcases List.eq_nil_or_concat l₁ with rfl | ⟨l₀, b', rfl⟩
    · cases hd
    · rw [List.concat_eq_append] at hp₁ hd
      obtain rfl : b' = d := by simpa using hd
      obtain ⟨node, -, hnode, hnext⟩ := hp₁.exists_last
      obtain rfl := Option.some.inj (hn.symm.trans hnode)
      exact hnext
  · rw [h.list, hsl]
    rfl

end Splice

/-! ### The three exits -/

theorem World.setNext_eq (h : w.nodes.cell a = some node) (p : Option ℕ) :
    w.setNext a p = some (w.setNode a { node with next := p }) := by
  simp [World.setNext, h]

/-- The exit at the end of the list. -/
private theorem splice_end (hsl : w.list = some sl) (ha : w.nodes.cell a = some node)
    (hne : a ≠ addr) (x : α) :
    ∃ w', (nodeCreate w addr x).setNext a (some addr) = some w' ∧
      Splice w sl x addr (some a) none w' := by
  have hcell : (nodeCreate w addr x).nodes.cell a = some node := by
    rw [nodeCreate, World.setNode, Store.insert_cell_of_ne _ _ hne, ha]
  refine ⟨_, World.setNext_eq hcell _, fun d => ?_, ?_, rfl, rfl⟩
  · by_cases hda : d = a
    · subst hda
      simp [World.setNode, spliced, hne, ha]
    · by_cases hd : d = addr
      · simp [World.setNode, nodeCreate, spliced, hd, hne.symm]
      · simp [World.setNode, nodeCreate, spliced, hd, hda, Ne.symm hda]
  · simp [World.setNode, nodeCreate, hsl]

/-- The exit in front of the first node. -/
private theorem splice_front (w : World α) (sl : SortedList α) (x : α) (addr a : ℕ) :
    ∃ w', ((nodeCreate w addr x).setFirst sl (some addr)).setNext addr (some a) = some w' ∧
      Splice w sl x addr none (some a) w' := by
  have hcell : ((nodeCreate w addr x).setFirst sl (some addr)).nodes.cell addr
      = some ⟨1, x, none⟩ := by
    simp [nodeCreate, World.setNode, World.setFirst]
  refine ⟨_, World.setNext_eq hcell _, fun d => ?_, by simp [World.setNode, World.setFirst],
    rfl, rfl⟩
  by_cases hd : d = addr <;> simp [World.setNode, World.setFirst, nodeCreate, spliced, hd]

/-- The exit between two nodes. -/
private theorem splice_between (hsl : w.list = some sl) (hb : w.nodes.cell b = some node)
    (hne : b ≠ addr) (x : α) (a : ℕ) :
    ∃ w₁ w', (nodeCreate w addr x).setNext b (some addr) = some w₁ ∧
      w₁.setNext addr (some a) = some w' ∧ Splice w sl x addr (some b) (some a) w' := by
  have hcell : (nodeCreate w addr x).nodes.cell b = some node := by
    rw [nodeCreate, World.setNode, Store.insert_cell_of_ne _ _ hne, hb]
  have hcell' : ((nodeCreate w addr x).setNode b { node with next := some addr }).nodes.cell addr
      = some ⟨1, x, none⟩ := by
    simp [World.setNode, nodeCreate, hne.symm]
  refine ⟨_, _, World.setNext_eq hcell _, World.setNext_eq hcell' _, fun d => ?_,
    by simp [World.setNode, nodeCreate, hsl], rfl, rfl⟩
  by_cases hd : d = addr
  · simp [World.setNode, spliced, hd]
  · by_cases hdb : d = b
    · subst hdb
      simp [World.setNode, spliced, hd, hb]
    · simp [World.setNode, nodeCreate, spliced, hd, hdb, Ne.symm hdb]

/-! ### The loop -/

/-- A loop test that lets exactly the larger items pass, for a lawful comparator: both
`== 1` and `> 0` do. -/
def Passes (c : Comparator α) (advance : ℤ → Bool) : Prop :=
  ∀ x y, advance (c.compare x y) = true ↔ c.gt x y

theorem passes_eq_one (c : Comparator α) : Passes c (· == 1) := fun x y => by
  simp [Comparator.gt]

theorem passes_pos (c : Comparator α) : Passes c (0 < ·) := fun x y => by
  have := c.range x y
  simp only [decide_eq_true_eq, Comparator.gt]
  omega

/-- What follows a node that is smaller than the new item is smaller. -/
private theorem Valid.gt_of_path (hv : Valid c w) (htail : w.nodes.Path Node.next none node.next l)
    (hnode : w.nodes.cell a = some node) (hsmall : c.gt x node.data) :
    ∀ b ∈ a :: l, ∀ m, w.nodes.cell b = some m → c.gt x m.data := by
  intro b hb m hm
  rcases List.mem_cons.mp hb with rfl | hb
  · obtain rfl := Option.some.inj (hnode.symm.trans hm)
    exact hsmall
  · exact trans_of c.gt hsmall (hv.counted.descends.rel_of_path hnode htail hb hm)

/-- **The new node goes in front of a smaller one**, which is the first node of the list or
follows one that is larger. -/
theorem slInsertLoop_before {advance : ℤ → Bool} (hv : Valid c w) (hsl : w.list = some sl)
    (hfresh : w.nodes.cell addr = none)
    (hp₁ : w.nodes.Path Node.next (some a) w.first l₁)
    (hp₂ : w.nodes.Path Node.next none (some a) (a :: l₂))
    (hgt : ∀ b ∈ l₁, ∀ m, w.nodes.cell b = some m → c.gt m.data x)
    (hsmall : ∀ b ∈ a :: l₂, ∀ m, w.nodes.cell b = some m → c.gt x m.data) (n : ℕ)
    (hnode : w.nodes.cell a = some node) (hadv : advance (sl.compare node.data x) = false)
    (hzero : sl.compare node.data x ≠ 0) :
    ∃ w', slInsertLoop advance sl x addr (n + 1) w l₁.getLast? a = some (w', 1) ∧
      Inserts c w x addr w' l₁ (a :: l₂) := by
  have hsmall' : ∀ b m, some a = some b → w.nodes.cell b = some m → c.gt x m.data :=
    fun b m hb hm => hsmall b (by simp [Option.some.inj hb]) m hm
  rcases hlast : l₁.getLast? with _ | p
  · -- in front of the first node
    obtain ⟨w', hw', hsplice⟩ := splice_front w sl x addr a
    refine ⟨w', ?_, hsplice.inserts hv hsl hfresh hp₁ hp₂ hlast.symm hgt hsmall'⟩
    simp [slInsertLoop, hnode, hadv, hzero, hw']
  · -- between two nodes
    obtain ⟨pn, hpn⟩ := hp₁.exists_cell (List.mem_of_getLast? hlast)
    have hpne : p ≠ addr := by
      rintro rfl
      simp [hfresh] at hpn
    obtain ⟨w₁, w', hw₁, hw', hsplice⟩ := splice_between hsl hpn hpne x a
    refine ⟨w', ?_, hsplice.inserts hv hsl hfresh hp₁ hp₂ hlast.symm hgt hsmall'⟩
    simp [slInsertLoop, hnode, hadv, hzero, hw₁, hw']

/-- **The loop of `SLInsert`**, entered at the node `a` behind the larger nodes `l₁`. The
induction is on the nodes still to be visited. -/
theorem slInsertLoop_spec {advance : ℤ → Bool} {n : ℕ} (hadv : Passes c advance)
    (hv : Valid c w) (hsl : w.list = some sl) (hfresh : w.nodes.cell addr = none)
    (hp₁ : w.nodes.Path Node.next (some a) w.first l₁)
    (hp₂ : w.nodes.Path Node.next none (some a) l₂) (hn : l₂.length ≤ n)
    (hgt : ∀ b ∈ l₁, ∀ m, w.nodes.cell b = some m → c.gt m.data x) :
    (slInsertLoop advance sl x addr n w l₁.getLast? a = some (w, 0) ∧
        ∃ y ∈ w.items, c.compare y x = 0) ∨
      ∃ w' k₁ k₂, slInsertLoop advance sl x addr n w l₁.getLast? a = some (w', 1) ∧
        Inserts c w x addr w' k₁ k₂ ∧
        (∀ b ∈ k₁, ∀ m, w.nodes.cell b = some m → c.gt m.data x) ∧
        ∀ b ∈ k₂, ∀ m, w.nodes.cell b = some m → c.gt x m.data := by
  induction n generalizing a l₁ l₂ with
  | zero =>
    obtain rfl := List.length_eq_zero_iff.mp (Nat.le_zero.mp hn)
    cases Store.Path.nil_iff.mp hp₂
  | succ n ih =>
    cases l₂ with
    | nil => cases Store.Path.nil_iff.mp hp₂
    | cons a' l₂ =>
    obtain ⟨ha', node, hnode, htail⟩ := Store.Path.cons_iff.mp hp₂
    obtain rfl := Option.some.inj ha'
    have hcmp : sl.compare = c.compare := (hv.list sl hsl).1
    have hne : a ≠ addr := by
      rintro rfl
      simp [hfresh] at hnode
    have hp₁' : w.nodes.Path Node.next node.next w.first (l₁ ++ [a]) :=
      hp₁.append (.cons hnode .nil)
    by_cases hpass : c.gt node.data x
    · -- the loop goes past `a`
      have hgt' : ∀ b ∈ l₁ ++ [a], ∀ m, w.nodes.cell b = some m → c.gt m.data x := by
        intro b hb m hm
        rcases List.mem_append.mp hb with hb | hb
        · exact hgt b hb m hm
        · obtain rfl := List.mem_singleton.mp hb
          obtain rfl := Option.some.inj (hnode.symm.trans hm)
          exact hpass
      have hadv' : advance (sl.compare node.data x) = true := by
        rw [hcmp]
        exact (hadv _ _).mpr hpass
      rcases hnext : node.next with _ | b
      · -- the end of the list
        rw [hnext] at hp₁' htail
        obtain ⟨w', hw', hsplice⟩ := splice_end hsl hnode hne x
        obtain rfl := (Store.Path.unique htail .nil)
        refine .inr ⟨w', l₁ ++ [a], [], ?_, hsplice.inserts hv hsl hfresh hp₁' .nil (by simp)
          hgt' (by simp), hgt', by simp⟩
        simp [slInsertLoop, hnode, hadv', hnext, hw']
      · rw [hnext] at hp₁' htail
        have hrec : slInsertLoop advance sl x addr (n + 1) w l₁.getLast? a
            = slInsertLoop advance sl x addr n w (l₁ ++ [a]).getLast? b := by
          simp [slInsertLoop, hnode, hadv', hnext]
        rw [hrec]
        exact ih hp₁' htail (by simpa using hn) hgt'
    · have hadv' : advance (c.compare node.data x) = false :=
        Bool.eq_false_iff.mpr fun h => hpass ((hadv _ _).mp h)
      by_cases hzero : c.compare node.data x = 0
      · -- an equal item: nothing is inserted
        have hadv₀ : advance 0 = false := hzero ▸ hadv'
        refine .inl ⟨by simp [slInsertLoop, hnode, hcmp, hzero, hadv₀], node.data, ?_, hzero⟩
        refine Valid.mem_items.mpr ⟨a, ?_, by simp [World.item, hnode]⟩
        rw [hv.linked_eq (hp₁.append hp₂)]
        simp
      · -- the first smaller item: the new node goes in front of it
        have hsmall := hv.gt_of_path htail hnode (c.gt_of_not hpass hzero)
        obtain ⟨w', hw', hins⟩ := slInsertLoop_before hv hsl hfresh hp₁ hp₂ hgt hsmall n hnode
          (by rw [hcmp]; exact hadv') (by rw [hcmp]; exact hzero)
        exact .inr ⟨w', l₁, a :: l₂, hw', hins, hgt, hsmall⟩

/-- **`SLInsert`**: `0` and no change when an equal item is listed, else `1` and the item is
inserted behind the larger items. -/
theorem slInsertWith_spec {advance : ℤ → Bool} (hadv : Passes c advance) (hv : Valid c w)
    (hsl : w.list.isSome) (hfresh : addr ∉ w.nodes.dom) (x : α) :
    (slInsertWith advance w x addr = some (w, 0) ∧ ∃ y ∈ w.items, c.compare y x = 0) ∨
      ∃ w' l₁ l₂, slInsertWith advance w x addr = some (w', 1) ∧ Inserts c w x addr w' l₁ l₂ ∧
        (∀ b ∈ l₁, ∀ m, w.nodes.cell b = some m → c.gt m.data x) ∧
        ∀ b ∈ l₂, ∀ m, w.nodes.cell b = some m → c.gt x m.data := by
  obtain ⟨sl, hsl⟩ := Option.isSome_iff_exists.mp hsl
  have hfresh := Store.cell_eq_none hfresh
  have hfirst : w.first = sl.first := by simp [World.first, hsl]
  have hpath := hv.path_linked
  rcases hf : sl.first with _ | a
  · -- the empty list
    rw [hfirst, hf] at hpath
    have hnil : w.linked = [] := Store.Path.unique hpath .nil
    have hsplice : Splice w sl x addr none none
        ((nodeCreate w addr x).setFirst sl (some addr)) := by
      refine ⟨fun d => ?_, by simp [World.setFirst], rfl, rfl⟩
      by_cases hd : d = addr <;> simp [World.setFirst, nodeCreate, World.setNode, spliced, hd]
    refine .inr ⟨_, [], [], by simp [slInsertWith, hsl, hf], hsplice.inserts hv hsl hfresh
      (by rw [hfirst, hf]; exact .nil) .nil rfl (by simp) (by simp), by simp, by simp⟩
  · rw [hfirst, hf] at hpath
    have hloop : slInsertWith advance w x addr
        = slInsertLoop advance sl x addr w.fuel w ([] : List ℕ).getLast? a := by
      simp [slInsertWith, hsl, hf]
    rw [hloop]
    exact slInsertLoop_spec hadv hv hsl hfresh (by rw [hfirst, hf]; exact .nil) hpath
      hv.linked_length_lt_fuel.le (by simp)

end Cs214.SortedList
