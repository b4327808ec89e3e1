import Cs214.SortedList.Insert

/-!
# `SLRemove` and `SLDestroy`

A removal unlinks a node (`Unlink`): the node before it, or the header, is linked to the node
behind it, which gains a reference, and the reference to the removed node is dropped through
`nodeDestroy`. The branch for the first node of the list is written out in the source without
`nodeDestroy`; `removeFirst_eq` shows that it does the same.

`slRemove_spec` is the specification of `SLRemove`, with the effect `Removes`. `SLDestroy`
removes first nodes until there is none; `slDestroy_spec` presents it as a chain of `Removes`
steps, so that whatever a removal keeps is kept by the destruction of the list.
-/

namespace Cs214.SortedList

variable {α : Type} {c : Comparator α} {w w' w'' w₁ : World α} {a b r : ℕ}
  {p q : Option ℕ} {node : Node α} {l l₁ l₂ freed freed' : List ℕ} {sl : SortedList α} {x : α}

/-- **What a call frees**: the nodes `freed` go, and the destructor is called on their items
in this order; all other nodes stay with their items. -/
structure Frees (w w' : World α) (freed : List ℕ) : Prop where
  nodup : freed.Nodup
  gone : ∀ a ∈ freed, (∃ n, w.nodes.cell a = some n) ∧ w'.nodes.cell a = none
  kept : ∀ a n, w.nodes.cell a = some n → a ∉ freed → ∃ n', w'.nodes.cell a = some n'
  item : ∀ a n', w'.nodes.cell a = some n' → w.item a = some n'.data
  destructed : w'.destructed = w.destructed ++ freed.filterMap w.item

namespace Frees

/-- A change of counts and links frees nothing. -/
theorem of_item_eq (hi : ∀ a, w'.item a = w.item a) (hd : w'.destructed = w.destructed) :
    Frees w w' [] := by
  refine ⟨.nil, by simp, fun a n hn _ => ?_, fun a n' hn' => ?_, by simp [hd]⟩
  · have : w'.item a = some n.data := by rw [hi, World.item, hn]; rfl
    obtain ⟨n', hn', -⟩ := World.item_eq_some.mp this
    exact ⟨n', hn'⟩
  · rw [← hi, World.item, hn']
    rfl

/-- Only the nodes and the log count. -/
theorem of_eq (h : Frees w w' freed) (hn : w''.nodes = w'.nodes)
    (hd : w''.destructed = w'.destructed) : Frees w w'' freed := by
  refine ⟨h.nodup, ?_, ?_, ?_, hd.trans h.destructed⟩
  · rw [hn]
    exact h.gone
  · rw [hn]
    exact h.kept
  · rw [hn]
    exact h.item

theorem trans (h₁ : Frees w w' freed) (h₂ : Frees w' w'' freed') :
    Frees w w'' (freed ++ freed') := by
  have hitem : ∀ a ∈ freed', w'.item a = w.item a := by
    intro a ha
    obtain ⟨n, hn⟩ := (h₂.gone a ha).1
    rw [h₁.item a n hn, World.item, hn]
    rfl
  have hgone : ∀ a, w'.nodes.cell a = none → w''.nodes.cell a = none := by
    intro a ha
    by_contra hne
    obtain ⟨n, hn⟩ := Option.ne_none_iff_exists'.mp hne
    obtain ⟨m, hm, -⟩ := World.item_eq_some.mp (h₂.item a n hn)
    simp [ha] at hm
  refine ⟨?_, fun a ha => ?_, fun a n hn ha => ?_, fun a n' hn' => ?_, ?_⟩
  · refine List.nodup_append.mpr ⟨h₁.nodup, h₂.nodup, fun a ha b hb => ?_⟩
    rintro rfl
    obtain ⟨n, hn⟩ := (h₂.gone a hb).1
    simp [(h₁.gone a ha).2] at hn
  · rcases List.mem_append.mp ha with ha | ha
    · exact ⟨(h₁.gone a ha).1, hgone a (h₁.gone a ha).2⟩
    · obtain ⟨n, hn⟩ := (h₂.gone a ha).1
      obtain ⟨m, hm, -⟩ := World.item_eq_some.mp (h₁.item a n hn)
      exact ⟨⟨m, hm⟩, (h₂.gone a ha).2⟩
  · rw [List.mem_append, not_or] at ha
    obtain ⟨n', hn'⟩ := h₁.kept a n hn ha.1
    exact h₂.kept a n' hn' ha.2
  · obtain ⟨m, hm, hd⟩ := World.item_eq_some.mp (h₂.item a n' hn')
    rw [h₁.item a m hm, hd]
  · rw [h₂.destructed, h₁.destructed, List.filterMap_congr hitem, List.filterMap_append,
      List.append_assoc]

end Frees

/-- The cascade of `nodeDestroy` as a freeing step. -/
theorem Cascade.frees {ext : ℕ → ℕ} (h : Cascade w p w' q freed) (hc : Counted c w.nodes ext) :
    Frees w w' freed where
  nodup := hc.descends.nodup_of_path h.path
  gone a ha := ⟨h.path.exists_cell ha, h.cell_of_mem ha⟩
  kept _ _ hn ha := h.exists_of_notMem ha hn
  item a n' hn' := by
    obtain ⟨n, hn, hd, -⟩ := h.shrinks a n' hn'
    simp [World.item, hn, hd]
  destructed := h.destructed

/-! ### Unlinking a node -/

/-- The nodes after the link from `p` to a node has been led on to `q`, behind it. -/
def unlinked (w : World α) (p q : Option ℕ) (a : ℕ) : Option (Node α) :=
  if p = some a then (w.nodes.cell a).map fun n => { n with next := q }
  else if q = some a then (w.nodes.cell a).map fun n => { n with ptrCount := n.ptrCount + 1 }
  else w.nodes.cell a

/-- The state of a removal before the reference to the removed node is dropped. -/
structure Unlink (w : World α) (sl : SortedList α) (p q : Option ℕ) (w₁ : World α) : Prop where
  cell : ∀ a, w₁.nodes.cell a = unlinked w p q a
  list : w₁.list = some (if p = none then { sl with first := q } else sl)
  iterators : w₁.iterators = w.iterators
  destructed : w₁.destructed = w.destructed

/-- **The effect of a successful removal**: the node `r` between `l₁` and `l₂` leaves the
list, its item compares equal to `x`, and the nodes `freed` are freed. -/
structure Removes (c : Comparator α) (w : World α) (x : α) (w' : World α) (l₁ : List ℕ) (r : ℕ)
    (l₂ freed : List ℕ) : Prop where
  valid : Valid c w'
  linked_before : w.linked = l₁ ++ r :: l₂
  linked : w'.linked = l₁ ++ l₂
  equal : ∃ n, w.nodes.cell r = some n ∧ c.compare n.data x = 0
  frees : Frees w w' freed
  reaches : ∀ a b, (∃ n, w'.nodes.cell a = some n) → b ≠ r → Reaches w (some a) b →
    Reaches w' (some a) b
  list : w'.list.isSome = w.list.isSome
  iterators : w'.iterators = w.iterators

/-- The accounting after `if (q != NULL) q->ptrCount++`. -/
theorem Counted.retainIfAny {nodes : Store (Node α)} {ext : ℕ → ℕ} (h : Counted c nodes ext)
    {s : Store (Node α)} (hq : ∀ d, q = some d → ∃ n, nodes.cell d = some n)
    (hs : ∀ a, s.cell a = if q = some a then
      (nodes.cell a).map fun n => { n with ptrCount := n.ptrCount + 1 } else nodes.cell a) :
    Counted c s (ext + ref q) := by
  rcases q with _ | d
  · obtain rfl : s = nodes := Store.ext fun a => by simp [hs a]
    exact h.congr fun a => by simp
  · obtain ⟨n, hn⟩ := hq d rfl
    obtain rfl : s = nodes.insert d { n with ptrCount := n.ptrCount + 1 } := by
      refine Store.ext fun a => ?_
      rw [hs a]
      by_cases hd : a = d
      · subst hd
        simp [hn]
      · simp [hd, Ne.symm hd]
    exact h.retain hn

namespace Unlink

section

variable (h : Unlink w sl p q w₁) (hv : Valid c w) (hsl : w.list = some sl)
  (hp₁ : w.nodes.Path Node.next (some r) w.first l₁) (hr : w.nodes.cell r = some node)
  (hq : node.next = q) (hp₂ : w.nodes.Path Node.next none q l₂) (hlast : p = l₁.getLast?)

include h in
/-- Away from the relinked node only counts change. -/
private theorem next_eq (ha : p ≠ some a) {n : Node α} (hn : w.nodes.cell a = some n) :
    ∃ n', w₁.nodes.cell a = some n' ∧ n'.next = n.next := by
  rw [h.cell a, unlinked, if_neg ha, hn]
  split_ifs
  · exact ⟨_, rfl, rfl⟩
  · exact ⟨n, rfl, rfl⟩

include h in
private theorem item_eq (a : ℕ) : w₁.item a = w.item a := by
  rw [World.item, h.cell a, unlinked, World.item]
  split_ifs <;> simp [Option.map_map, Function.comp_def]

include hv hp₁ hr hq hp₂ in
private theorem linked_before : w.linked = l₁ ++ r :: l₂ :=
  hv.linked_eq (hp₁.append (.cons hr (hq ▸ hp₂)))

include hv hp₁ hr hq hp₂ in
private theorem nodup : (l₁ ++ r :: l₂).Nodup :=
  linked_before hv hp₁ hr hq hp₂ ▸ hv.linked_nodup

include hp₁ hlast in
/-- The node before the removed one is linked to it. -/
private theorem next_of_last (hb : p = some b) : ∃ l₀ n, l₁ = l₀ ++ [b] ∧
    w.nodes.Path Node.next (some b) w.first l₀ ∧ w.nodes.cell b = some n ∧
    n.next = some r := by
  rcases List.eq_nil_or_concat l₁ with rfl | ⟨l₀, b', rfl⟩
  · rw [hlast] at hb
    cases hb
  · rw [List.concat_eq_append] at hp₁ hlast
    obtain rfl : b' = b := by simpa [hlast] using hb
    obtain ⟨n, hp₀, hn, hnext⟩ := hp₁.exists_last
    exact ⟨l₀, n, List.concat_eq_append .., hp₀, hn, hnext⟩

include h hv hsl hp₁ hr hq hlast in
/-- **The accounting of an unlinked node**: one reference to it is left to be dropped. -/
theorem counted : Counted c w₁.nodes (w₁.roots + ref (some r)) := by
  have hqcell : ∀ d, q = some d → ∃ n, w.nodes.cell d = some n := by
    intro d hd
    obtain ⟨m, hm, -⟩ := hv.exists_next hr (hq.trans hd)
    exact ⟨m, hm⟩
  rcases hp : p with _ | b
  · -- the header's reference to `r` is left over
    have hl : l₁ = [] := List.getLast?_eq_none_iff.mp (hlast.symm.trans hp)
    subst hl
    have hfirst : w.first = some r := Store.Path.nil_iff.mp hp₁
    refine (hv.counted.retainIfAny hqcell fun a => ?_).congr fun a => ?_
    · rw [h.cell a, unlinked, hp, if_neg (by simp)]
    · simp only [World.roots, Pi.add_apply, hfirst, h.iterators]
      simp only [World.first, h.list, hp, if_true, Option.bind_some]
      omega
  · -- the link of `b` to `r` is led on to `q`
    obtain ⟨l₀, bn, -, -, hbn, hnext⟩ := next_of_last hp₁ hlast hp
    -- the items descend from `b` over `r` to `q`
    have hqb : q ≠ some b := by
      intro hqb
      obtain ⟨m, hm, hgt⟩ := hv.exists_next hr (hq.trans hqb)
      obtain ⟨m', hm', hgt'⟩ := hv.exists_next hbn hnext
      obtain rfl := Option.some.inj (hbn.symm.trans hm)
      obtain rfl := Option.some.inj (hr.symm.trans hm')
      exact irrefl_of c.gt _ (trans_of c.gt hgt hgt')
    have hret : Counted c (w₁.nodes.insert b bn) (w.roots + ref q) := by
      refine hv.counted.retainIfAny hqcell fun a => ?_
      by_cases hab : a = b
      · subst hab
        simp [hqb, hbn]
      · rw [Store.insert_cell_of_ne _ _ hab, h.cell a, unlinked, hp,
          if_neg (by simpa using Ne.symm hab)]
    have hre := hret.relink (q := q) (Store.insert_cell_self _ _ _) fun d n hd hn => by
      have hdb : d ≠ b := by
        rintro rfl
        exact hqb hd
      rw [Store.insert_cell_of_ne _ _ hdb, h.cell d, unlinked, hp,
        if_neg (by simpa using Ne.symm hdb), if_pos hd] at hn
      obtain ⟨m, hm, rfl⟩ := Option.map_eq_some_iff.mp hn
      obtain ⟨m', hm', hgt⟩ := hv.exists_next hr (hq.trans hd)
      obtain ⟨m'', hm'', hgt'⟩ := hv.exists_next hbn hnext
      obtain rfl := Option.some.inj (hm.symm.trans hm')
      obtain rfl := Option.some.inj (hr.symm.trans hm'')
      exact trans_of c.gt hgt' hgt
    have heq : w₁.nodes = (w₁.nodes.insert b bn).insert b { bn with next := q } := by
      refine Store.ext fun a => ?_
      by_cases hab : a = b
      · subst hab
        rw [Store.insert_cell_self, h.cell a, unlinked, if_pos hp, hbn]
        rfl
      · rw [Store.insert_cell_of_ne _ _ hab, Store.insert_cell_of_ne _ _ hab]
    rw [heq]
    refine hre.congr fun a => ?_
    simp [World.roots, World.first, h.list, h.iterators, hsl, hp, hnext]

include h hv hsl hp₁ hr hq hp₂ hlast in
/-- The chain from the header after the removal. -/
private theorem path : w₁.nodes.Path Node.next none w₁.first (l₁ ++ l₂) := by
  have hnd := nodup hv hp₁ hr hq hp₂
  have htail : w₁.nodes.Path Node.next none q l₂ := by
    refine hp₂.congr fun a ha n hn => h.next_eq ?_ hn
    rintro rfl
    have := List.mem_of_getLast? hlast.symm
    exact (List.nodup_append.mp hnd).2.2 a this a (List.mem_cons_of_mem _ ha) rfl
  rcases hp : p with _ | b
  · have hl : l₁ = [] := List.getLast?_eq_none_iff.mp (hlast.symm.trans hp)
    subst hl
    have hfirst : w₁.first = q := by simp [World.first, h.list, hp]
    rw [hfirst]
    exact htail
  · obtain ⟨l₀, bn, rfl, hp₀, hbn, -⟩ := next_of_last hp₁ hlast hp
    have hfirst : w₁.first = w.first := by simp [World.first, h.list, hp, hsl]
    have hb : w₁.nodes.cell b = some { bn with next := q } := by
      rw [h.cell b, unlinked, if_pos hp, hbn]
      rfl
    rw [hfirst, List.append_assoc]
    refine Store.Path.append (hp₀.congr fun a ha n hn => h.next_eq ?_ hn) (.cons hb htail)
    rw [hp]
    intro hab
    obtain rfl := Option.some.inj hab
    have := (List.nodup_append.mp (List.nodup_append.mp hnd).1).2.2
    exact this b ha b (by simp) rfl

include h hv hp₁ hr hq hlast in
/-- Reachability is kept, except to the removed node. -/
private theorem reaches (hb : b ≠ r) {s : Option ℕ} (hs : Reaches w s b) : Reaches w₁ s b := by
  obtain ⟨l, hl⟩ := hs
  induction hl with
  | nil => exact .refl w₁ b
  | @cons a n l hn _ ih =>
    by_cases hpa : p = some a
    · obtain ⟨-, n', -, -, hn', hnext⟩ := next_of_last hp₁ hlast hpa
      obtain rfl := Option.some.inj (hn.symm.trans hn')
      have ha : w₁.nodes.cell a = some { n with next := q } := by
        rw [h.cell a, unlinked, if_pos hpa, hn]
        rfl
      have hpr : p ≠ some r := by
        intro hpr
        obtain rfl := Option.some.inj (hpa.symm.trans hpr)
        obtain ⟨m, hm, hgt⟩ := hv.exists_next hn hnext
        obtain rfl := Option.some.inj (hn.symm.trans hm)
        exact irrefl_of c.gt _ hgt
      -- the old link led to `r`, whose own link is the new one of `a`
      rw [hnext] at ih
      rcases ih.cases_head with hrb | ⟨d, m, hd, hm, hrest⟩
      · exact absurd (Option.some.inj hrb).symm hb
      · obtain rfl := Option.some.inj hd
        obtain ⟨m', hm', hmn⟩ := h.next_eq hpr hr
        obtain rfl := Option.some.inj (hm.symm.trans hm')
        rw [hmn, hq] at hrest
        exact .head ha hrest
    · obtain ⟨n', hn', hnn⟩ := h.next_eq hpa hn
      refine .head hn' ?_
      rw [hnn]
      exact ih

include h hv hsl hp₁ hr hq hp₂ hlast in
/-- **Unlinking and dropping the reference** to the removed node is a removal. -/
theorem removes (hx : c.compare node.data x = 0) {r' : Option ℕ}
    (hcas : Cascade w₁ (some r) w' r' freed) (hcount : Counted c w'.nodes w₁.roots) :
    Removes c w x w' l₁ r l₂ freed := by
  have hroots : w'.roots = w₁.roots := by
    rw [World.roots, World.roots, World.first, World.first, hcas.list, hcas.iterators]
  have hvalid : Valid c w' := by
    refine ⟨hroots ▸ hcount, fun l hl => ?_, fun i it hi => ?_⟩
    · rw [hcas.list, h.list] at hl
      obtain rfl := Option.some.inj hl
      have := hv.list sl hsl
      split_ifs <;> exact this
    · rw [hcas.iterators, h.iterators] at hi
      exact hv.iterators i it hi
  have hfirst : w'.first = w₁.first := by rw [World.first, World.first, hcas.list]
  have hlinked : w'.linked = l₁ ++ l₂ := by
    have hbefore := hcas.shrinks.path_before (hfirst ▸ hvalid.path_linked)
    exact hbefore.unique (h.path hv hsl hp₁ hr hq hp₂ hlast)
  have hfrees : Frees w w' freed := by
    have := (Frees.of_item_eq h.item_eq h.destructed).trans
      (hcas.frees (h.counted hv hsl hp₁ hr hq hlast))
    simpa using this
  refine ⟨hvalid, linked_before hv hp₁ hr hq hp₂, hlinked, ⟨node, hr, hx⟩, hfrees,
    fun a b ha hb hreach => ?_, ?_, ?_⟩
  · exact hcas.shrinks.reaches hvalid ha (h.reaches hv hp₁ hr hq hlast hb hreach)
  · rw [hcas.list, h.list, hsl]
    rfl
  · rw [hcas.iterators, h.iterators]

end

end Unlink

/-! ### The search loop -/

/-- **The loop of `SLRemove`**, entered at `p` behind the nodes `l₁`, none of them equal. -/
theorem slRemoveLoop_spec {n : ℕ} (hcmp : sl.compare = c.compare)
    (hp₁ : w.nodes.Path Node.next p w.first l₁) (hp₂ : w.nodes.Path Node.next none p l₂)
    (hn : l₂.length < n)
    (hne : ∀ b ∈ l₁, ∀ m, w.nodes.cell b = some m → c.compare m.data x ≠ 0) :
    (∃ prev, slRemoveLoop sl x w n l₁.getLast? p = some (prev, none) ∧
        ∀ b ∈ l₁ ++ l₂, ∀ m, w.nodes.cell b = some m → c.compare m.data x ≠ 0) ∨
      ∃ k₁ r k₂ node, slRemoveLoop sl x w n l₁.getLast? p = some (k₁.getLast?, some r) ∧
        w.nodes.Path Node.next (some r) w.first k₁ ∧ w.nodes.cell r = some node ∧
        w.nodes.Path Node.next none node.next k₂ ∧ c.compare node.data x = 0 := by
  induction n generalizing p l₁ l₂ with
  | zero => simp at hn
  | succ n ih =>
    cases hp₂ with
    | nil => exact .inl ⟨l₁.getLast?, by simp [slRemoveLoop], by simpa using hne⟩
    | @cons a node l hnode htail =>
      by_cases hzero : c.compare node.data x = 0
      · exact .inr ⟨l₁, a, l, node, by simp [slRemoveLoop, hnode, hcmp, hzero], hp₁, hnode,
          htail, hzero⟩
      · have hrec : slRemoveLoop sl x w (n + 1) l₁.getLast? (some a)
            = slRemoveLoop sl x w n (l₁ ++ [a]).getLast? node.next := by
          simp [slRemoveLoop, hnode, hcmp, hzero]
        rw [hrec, show l₁ ++ a :: l = (l₁ ++ [a]) ++ l by simp]
        refine ih (hp₁.append (.cons hnode .nil)) htail (by simpa using hn) ?_
        intro b hb m hm
        rcases List.mem_append.mp hb with hb | hb
        · exact hne b hb m hm
        · obtain rfl := List.mem_singleton.mp hb
          obtain rfl := Option.some.inj (hnode.symm.trans hm)
          exact hzero

/-! ### The two branches -/

theorem World.addPtr_eq (h : w.nodes.cell a = some node) (k : ℤ) :
    w.addPtr a k = some (w.setNode a { node with ptrCount := node.ptrCount + k }) := by
  simp [World.addPtr, h]

/-- The effect of `if (q != NULL) q->ptrCount += k`. -/
theorem World.addPtrIfAny_spec (w : World α) (k : ℤ)
    (hq : ∀ d, q = some d → ∃ n, w.nodes.cell d = some n) :
    ∃ w₁, w.addPtrIfAny q k = some w₁ ∧
      (∀ a, w₁.nodes.cell a = if q = some a then
        (w.nodes.cell a).map fun n => { n with ptrCount := n.ptrCount + k }
        else w.nodes.cell a) ∧
      w₁.list = w.list ∧ w₁.iterators = w.iterators ∧ w₁.destructed = w.destructed := by
  rcases q with _ | d
  · exact ⟨w, rfl, fun a => by simp, rfl, rfl, rfl⟩
  · obtain ⟨n, hn⟩ := hq d rfl
    refine ⟨_, World.addPtr_eq hn k, fun a => ?_, rfl, rfl, rfl⟩
    by_cases ha : a = d
    · subst ha
      simp [World.setNode, hn]
    · simp [World.setNode, ha, Ne.symm ha]

/-- **The branch behind another node** is an unlinking followed by `nodeDestroy`. -/
theorem removeAfter_spec (hv : Valid c w) (hsl : w.list = some sl)
    (hp₁ : w.nodes.Path Node.next (some r) w.first l₁) (hr : w.nodes.cell r = some node)
    (hp₂ : w.nodes.Path Node.next none node.next l₂) (hlast : some b = l₁.getLast?)
    (hx : c.compare node.data x = 0) :
    ∃ w' freed, removeAfter sl w b r = some w' ∧ Removes c w x w' l₁ r l₂ freed := by
  obtain ⟨l₀, bn, -, -, hbn, hnext⟩ := Unlink.next_of_last hp₁ hlast rfl
  obtain ⟨m, hm, hgt⟩ := hv.exists_next hbn hnext
  obtain rfl := Option.some.inj (hr.symm.trans hm)
  have hqb : ∀ d, node.next = some d → d ≠ b := by
    rintro d hd rfl
    obtain ⟨m', hm', hgt'⟩ := hv.exists_next hr hd
    obtain rfl := Option.some.inj (hbn.symm.trans hm')
    exact irrefl_of c.gt _ (trans_of c.gt hgt hgt')
  have hset := World.setNext_eq hbn node.next
  obtain ⟨w₁, hw₁, hcell, hlist, hiter, hlog⟩ :=
    (w.setNode b { bn with next := node.next }).addPtrIfAny_spec (q := node.next) 1 (by
      intro d hd
      obtain ⟨m', hm', -⟩ := hv.exists_next hr hd
      exact ⟨m', by rw [World.setNode, Store.insert_cell_of_ne _ _ (hqb d hd), hm']⟩)
  have hunlink : Unlink w sl (some b) node.next w₁ := by
    refine ⟨fun a => ?_, by simp [hlist, World.setNode, hsl], hiter, hlog⟩
    rw [hcell a, unlinked]
    by_cases hab : a = b
    · subst hab
      have hna : node.next ≠ some a := fun h => hqb a h rfl
      simp [World.setNode, hbn, hna]
    · simp [World.setNode, hab, Ne.symm hab]
  have hcount := hunlink.counted hv hsl hp₁ hr rfl hlast
  obtain ⟨rn, hrn⟩ := hcount.roots r (by simp)
  obtain ⟨l, hl⟩ := hcount.descends.exists_chain hrn
  obtain ⟨w', r', freed, hrun, hcas, hcount'⟩ := nodeDestroy_spec (n := w₁.fuel) hcount hl
    ((hl.length_le_card (hcount.descends.nodup_of_path hl)).trans (Nat.le_succ _))
  refine ⟨w', freed, ?_, hunlink.removes hv hsl hp₁ hr rfl hp₂ hlast hx hcas hcount'⟩
  simp [removeAfter, hr, hset, hw₁, (hv.list sl hsl).2, hrun]

/-- The branch for the first node does what unlinking and `nodeDestroy` would do: one
reference to the second node is added and, when the first node goes, taken back. -/
private theorem removeFirst_eq (hv : Valid c w) (hsl : w.list = some sl)
    (hr : w.nodes.cell r = some node)
    (hw₁ : (w.setFirst sl node.next).addPtrIfAny node.next 1 = some w₁) (n : ℕ) :
    removeFirst sl w r = (nodeDestroy .func (n + 2) w₁ (some r)).map Prod.fst := by
  have hdes := (hv.list sl hsl).2
  rcases hnext : node.next with _ | d
  · -- `r` is the only node of the list
    obtain rfl : w.setFirst sl none = w₁ := by
      rw [hnext] at hw₁
      exact Option.some.inj hw₁
    by_cases h1 : node.ptrCount = 1
    · simp [removeFirst, World.addPtr, World.setFirst, World.setNode, hr, hnext,
        World.addPtrIfAny, nodeDestroy, h1, hdes, World.callDestruct, World.freeNode,
        Store.erase_insert_self]
    · have h0 : ¬node.ptrCount + -1 = 0 := by omega
      simp [removeFirst, World.addPtr, World.setFirst, World.setNode, hr, hnext,
        World.addPtrIfAny, nodeDestroy, h1, h0]
  · -- its successor `d` has the reference of the header before the one of `r` is dropped
    obtain ⟨m, hm, hgt⟩ := hv.exists_next hr hnext
    have hdr : d ≠ r := by
      rintro rfl
      obtain rfl := Option.some.inj (hr.symm.trans hm)
      exact irrefl_of c.gt _ hgt
    have hpos := hv.counted.pos d m hm
    obtain rfl : (w.setFirst sl (some d)).setNode d { m with ptrCount := m.ptrCount + 1 } = w₁ := by
      rw [hnext] at hw₁
      have : (w.setFirst sl (some d)).nodes.cell d = some m := hm
      rw [World.addPtrIfAny, World.addPtr_eq this] at hw₁
      exact Option.some.inj hw₁
    by_cases h1 : node.ptrCount = 1
    · have hm1 : ¬m.ptrCount + 1 = 1 := by omega
      simp [removeFirst, World.addPtr, World.setFirst, World.setNode, hr, hm, hnext, hdr,
        hdr.symm, World.addPtrIfAny, nodeDestroy, h1, hm1, hdes, World.callDestruct,
        World.freeNode, Store.insert_insert_self, Store.erase_insert_of_ne _ hdr,
        Store.erase_insert_self]
    · have h0 : ¬node.ptrCount + -1 = 0 := by omega
      simp [removeFirst, World.addPtr, World.setFirst, World.setNode, hr, hm, hnext, hdr,
        hdr.symm, World.addPtrIfAny, nodeDestroy, h1, h0, Store.insert_comm _ hdr]

/-- **The branch for the first node**. -/
theorem removeFirst_spec (hv : Valid c w) (hsl : w.list = some sl) (hf : w.first = some r)
    (hr : w.nodes.cell r = some node) (hp₂ : w.nodes.Path Node.next none node.next l₂)
    (hx : c.compare node.data x = 0) :
    ∃ w' freed, removeFirst sl w r = some w' ∧ Removes c w x w' [] r l₂ freed := by
  obtain ⟨w₁, hw₁, hcell, hlist, hiter, hlog⟩ :=
    (w.setFirst sl node.next).addPtrIfAny_spec (q := node.next) 1 (by
      intro d hd
      obtain ⟨m, hm, -⟩ := hv.exists_next hr hd
      exact ⟨m, hm⟩)
  have hunlink : Unlink w sl none node.next w₁ := by
    refine ⟨fun a => ?_, by simp [hlist, World.setFirst], hiter, hlog⟩
    simp [hcell a, unlinked, World.setFirst]
  have hp₁ : w.nodes.Path Node.next (some r) w.first [] := hf ▸ .nil
  have hcount := hunlink.counted hv hsl hp₁ hr rfl rfl
  obtain ⟨rn, hrn⟩ := hcount.roots r (by simp)
  obtain ⟨l, hl⟩ := hcount.descends.exists_chain hrn
  obtain ⟨w', r', freed, hrun, hcas, hcount'⟩ := nodeDestroy_spec (n := w₁.fuel + 1) hcount hl
    ((hl.length_le_card (hcount.descends.nodup_of_path hl)).trans
      (Nat.le_succ_of_le (Nat.le_succ _)))
  refine ⟨w', freed, ?_, hunlink.removes hv hsl hp₁ hr rfl hp₂ rfl hx hcas hcount'⟩
  rw [removeFirst_eq hv hsl hr hw₁ w₁.nodes.dom.card]
  rw [World.fuel] at hrun
  rw [hrun]
  rfl

/-- **`SLRemove`**: `0` and no change when no equal item is listed, else `1` and a removal. -/
theorem slRemove_spec (hv : Valid c w) (hsl : w.list.isSome) (x : α) :
    (slRemove w x = some (w, 0) ∧ ∀ y ∈ w.items, c.compare y x ≠ 0) ∨
      ∃ w' l₁ r l₂ freed, slRemove w x = some (w', 1) ∧ Removes c w x w' l₁ r l₂ freed := by
  obtain ⟨sl, hsl⟩ := Option.isSome_iff_exists.mp hsl
  have hfirst : w.first = sl.first := by simp [World.first, hsl]
  have hpath := hv.path_linked
  have hcmp := (hv.list sl hsl).1
  rcases hf : sl.first with _ | a
  · rw [hfirst, hf] at hpath
    have hnil : w.linked = [] := Store.Path.unique hpath .nil
    exact .inl ⟨by simp [slRemove, hsl, hf], by simp [World.items, hnil]⟩
  · rw [hfirst, hf] at hpath
    have hp₀ : w.nodes.Path Node.next (some a) w.first [] := by
      rw [hfirst, hf]
      exact .nil
    rcases slRemoveLoop_spec (x := x) hcmp hp₀ hpath hv.linked_length_lt_fuel (by simp) with
      ⟨prev, hloop, hne⟩ | ⟨k₁, r, k₂, node, hloop, hp₁, hr, hp₂, hx⟩
    · refine .inl ⟨?_, fun y hy => ?_⟩
      · rw [List.getLast?_nil] at hloop
        simp [slRemove, hsl, hf, hloop]
      · obtain ⟨b, hb, hitem⟩ := Valid.mem_items.mp hy
        obtain ⟨m, hm, rfl⟩ := World.item_eq_some.mp hitem
        exact hne b (by simpa using hb) m hm
    · rw [List.getLast?_nil] at hloop
      rcases hlast : k₁.getLast? with _ | b
      · obtain rfl := List.getLast?_eq_none_iff.mp hlast
        have hfr := Store.Path.nil_iff.mp hp₁
        obtain ⟨w', freed, hw', hrem⟩ := removeFirst_spec hv hsl hfr hr hp₂ hx
        exact .inr ⟨w', [], r, k₂, freed, by simp [slRemove, hsl, hf, hloop, hw'], hrem⟩
      · obtain ⟨w', freed, hw', hrem⟩ := removeAfter_spec hv hsl hp₁ hr hp₂ hlast.symm hx
        rw [hlast] at hloop
        exact .inr ⟨w', k₁, r, k₂, freed, by simp [slRemove, hsl, hf, hloop, hw'], hrem⟩

/-! ### Destroying the list -/

/-- A single removal, whatever it removes. -/
def RemovesSome (c : Comparator α) (w w' : World α) : Prop :=
  ∃ x l₁ r l₂ freed, Removes c w x w' l₁ r l₂ freed

/-- **The loop of `SLDestroy`** is a chain of removals that empties the list. -/
theorem slDestroyLoop_spec {n : ℕ} (hv : Valid c w) (hsl : w.list.isSome)
    (hn : w.linked.length < n) :
    ∃ w', slDestroyLoop n w = some w' ∧ Relation.ReflTransGen (RemovesSome c) w w' ∧
      Valid c w' ∧ w'.list.isSome ∧ w'.linked = [] := by
  induction n generalizing w with
  | zero => simp at hn
  | succ n ih =>
    obtain ⟨sl, hsl'⟩ := Option.isSome_iff_exists.mp hsl
    have hfirst : w.first = sl.first := by simp [World.first, hsl']
    rcases hf : sl.first with _ | a
    · refine ⟨w, by simp [slDestroyLoop, hsl', hf], .refl, hv, hsl, ?_⟩
      exact hv.linked_eq (by rw [hfirst, hf]; exact .nil)
    · obtain ⟨node, hnode⟩ := hv.exists_first (hfirst.trans hf)
      have ha : a ∈ w.linked := hv.mem_linked_iff.mpr (by rw [hfirst, hf]; exact .refl w a)
      have hitem : node.data ∈ w.items := Valid.mem_items.mpr ⟨a, ha, by simp [World.item, hnode]⟩
      rcases slRemove_spec hv hsl node.data with ⟨-, hne⟩ | ⟨w₁, l₁, r, l₂, freed, hrun, hrem⟩
      · exact absurd (c.compare_self _) (hne _ hitem)
      · have hlen : w₁.linked.length < n := by
          have h₁ := congrArg List.length hrem.linked_before
          have h₂ := congrArg List.length hrem.linked
          simp only [List.length_append, List.length_cons] at h₁ h₂
          omega
        obtain ⟨w', hw', hchain, hv', hl', hnil⟩ := ih hrem.valid (hrem.list ▸ hsl) hlen
        refine ⟨w', ?_, .head ⟨node.data, l₁, r, l₂, freed, hrem⟩ hchain, hv', hl', hnil⟩
        simp [slDestroyLoop, hsl', hf, hnode, hrun, hw']

/-- Dropping the header of an empty list. -/
private theorem Valid.dropList (hv : Valid c w) (hnil : w.linked = []) :
    Valid c { w with list := none } := by
  have hfirst : w.first = none := by
    have := hv.path_linked
    rw [hnil] at this
    exact Store.Path.nil_iff.mp this
  refine ⟨hv.counted.congr fun a => ?_, by simp, hv.iterators⟩
  simp only [World.roots, Pi.add_apply, hfirst]
  rfl

/-- **`SLDestroy`**: the items are removed one by one, then the header is freed. -/
theorem slDestroy_spec (hv : Valid c w) (hsl : w.list.isSome) :
    ∃ w₁, slDestroy w = some { w₁ with list := none } ∧
      Relation.ReflTransGen (RemovesSome c) w w₁ ∧ Valid c w₁ ∧ w₁.linked = [] ∧
      Valid c { w₁ with list := none } := by
  obtain ⟨w₁, hw₁, hchain, hv₁, -, hnil⟩ := slDestroyLoop_spec hv hsl hv.linked_length_lt_fuel
  exact ⟨w₁, by simp [slDestroy, hw₁], hchain, hv₁, hnil, hv₁.dropList hnil⟩

end Cs214.SortedList
