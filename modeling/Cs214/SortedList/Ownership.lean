import Cs214.SortedList.OrderedSet

/-!
# Who owns the nodes and the items

`ptrCount_eq_references` is the accounting invariant read off a run: a node counts the
pointers to it and no pointer dangles.

The second half follows the items. `Ledger tr w` ties the log of destructor calls to the
history `tr`: every item that was inserted is destructed or owned by exactly one node, and a
node that is no longer linked holds an item that left the list in a removal. Its step lemmas
`Ledger.frees` and `Ledger.insert` take the effect of a call as the calls describe it, by
the nodes they free and the node they add, and `items_destructed_once` draws the
conclusions.
-/

namespace Cs214.SortedList

variable {α : Type} {c : Comparator α} {w w' : World α} {op : Op α} {out : Answer α}
  {a b : ℕ} {l₁ l₂ freed : List ℕ} {x y : α} {tr : List (ListEvent α)} {e : ListEvent α}

/-- **Counts are references.** In every reachable world `ptrCount` is the number of pointers
to the node, no pointer dangles, and every legal call is answered. -/
theorem ptrCount_eq_references (h : Run (machine α) (start c) tr w) :
    (∀ a node, w.nodes.cell a = some node →
      node.ptrCount = (if w.first = some a then 1 else 0)
        + w.nodes.count (fun m => m.next == some a)
        + w.iterators.count (fun it => it.current == some a)) ∧
    (∀ a, w.first = some a → a ∈ w.nodes.dom) ∧
    (∀ b m a, w.nodes.cell b = some m → m.next = some a → a ∈ w.nodes.dom) ∧
    (∀ i it a, w.iterators.cell i = some it → it.current = some a → a ∈ w.nodes.dom) ∧
    ∀ op, legal w op → (step w op).isSome := by
  have hv := valid_of_run h
  refine ⟨fun a node ha => ?_, fun a ha => ?_, fun b m a hb hm => ?_, fun i it a hi hit => ?_,
    fun op hop => step_isSome_of_run h hop⟩
  · have hc := hv.counted.count a node ha
    have hlinks : w.nodes.count (fun m => m.next == some a) = inLinks w.nodes a := rfl
    have hiters : w.iterators.count (fun it => it.current == some a) = resting w.iterators a :=
      rfl
    simp only [World.roots, Pi.add_apply, ref] at hc
    rw [hlinks, hiters, hc]
    push_cast
    omega
  · obtain ⟨node, hnode⟩ := hv.exists_first ha
    exact Store.mem_dom_of_cell hnode
  · obtain ⟨n, hn, -⟩ := hv.exists_next hb hm
    exact Store.mem_dom_of_cell hn
  · obtain ⟨node, hnode⟩ := hv.exists_current hi hit
    exact Store.mem_dom_of_cell hnode

/-- In the session the removed node, on which the iterator rests, has one reference. -/
theorem ptrCount_eq_references_session :
    (sessionRun.2.nodes.cell 1).map Node.ptrCount = some 1 ∧ sessionRun.2.first = some 2 ∧
    ∀ node, sessionRun.2.nodes.cell 1 = some node →
      node.ptrCount = (if sessionRun.2.first = some 1 then 1 else 0)
        + sessionRun.2.nodes.count (fun m => m.next == some 1)
        + sessionRun.2.iterators.count (fun it => it.current == some 1) :=
  ⟨by decide +kernel, by decide +kernel, (ptrCount_eq_references run_session).1 1⟩

/-! ### The history of an item -/

/-- The item a call offers for insertion. -/
def offers (e : ListEvent α) : Option α :=
  match e.op with
  | .insert x _ => some x
  | _ => none

/-- The item a call inserted: the one it offers, when it answers `1`. -/
def inserts (e : ListEvent α) : Option α :=
  match e.out with
  | .int 1 => offers e
  | _ => none

/-- The items offered for insertion in a run, in this order. -/
def offered (tr : List (ListEvent α)) : List α := tr.filterMap offers

/-- The items inserted in a run. -/
def inserted (tr : List (ListEvent α)) : List α := tr.filterMap inserts

/-- The calls through which items leave the list. -/
def Op.IsRemoval : Op α → Prop
  | .remove _ | .destroy => True
  | _ => False

/-- `x` has left the list in a call of `SLRemove` or `SLDestroy`. -/
def HasLeft (tr : List (ListEvent α)) (x : α) : Prop :=
  ∃ e ∈ tr, e.op.IsRemoval ∧ x ∈ e.pre.items ∧ x ∉ e.post.items

private theorem HasLeft.append (h : HasLeft tr x) (tr' : List (ListEvent α)) :
    HasLeft (tr ++ tr') x := by
  obtain ⟨e, he, h⟩ := h
  exact ⟨e, by simp [he], h⟩

/-- What a call inserted, it was offered. -/
private theorem offers_of_inserts (h : inserts e = some x) : offers e = some x := by
  unfold inserts at h
  split at h
  · exact h
  · cases h

/-- The inserted items are among the offered ones, in the same order. -/
private theorem inserted_sublist (tr : List (ListEvent α)) :
    (inserted tr).Sublist (offered tr) := by
  induction tr with
  | nil => exact .slnil
  | cons e tr ih =>
    rcases hi : inserts e with _ | x
    · rw [inserted, List.filterMap_cons_none hi]
      rcases ho : offers e with _ | y
      · rwa [offered, List.filterMap_cons_none ho]
      · rw [offered, List.filterMap_cons_some ho]
        exact ih.cons _
    · rw [inserted, List.filterMap_cons_some hi, offered,
        List.filterMap_cons_some (offers_of_inserts hi)]
      exact ih.cons_cons _

/-- **The ledger**: where every inserted item is. -/
structure Ledger (tr : List (ListEvent α)) (w : World α) : Prop where
  nodup : w.destructed.Nodup
  alive : ∀ a x, w.item a = some x → x ∉ w.destructed
  owner : ∀ a b x, w.item a = some x → w.item b = some x → a = b
  inserted : ∀ a x, w.item a = some x → x ∈ inserted tr
  destructed : ∀ x ∈ w.destructed, x ∈ SortedList.inserted tr ∧ HasLeft tr x
  kept : ∀ x ∈ SortedList.inserted tr, x ∈ w.destructed ∨ ∃ a, w.item a = some x
  left : ∀ a x, w.item a = some x → a ∈ w.linked ∨ HasLeft tr x

namespace Ledger

/-- An item that is linked before a removal and whose node is not linked after it has left
the list. -/
private theorem hasLeft (h : Ledger tr e.pre) (hrem : e.op.IsRemoval) (hx : e.pre.item a = some x)
    (hbefore : a ∈ e.pre.linked) (hafter : a ∉ e.post.linked)
    (hitem : ∀ b y, e.post.item b = some y → e.pre.item b = some y) :
    HasLeft (tr ++ [e]) x := by
  refine ⟨e, by simp, hrem, Valid.mem_items.mpr ⟨a, hbefore, hx⟩, fun hmem => ?_⟩
  obtain ⟨b, hb, hbx⟩ := Valid.mem_items.mp hmem
  obtain rfl := h.owner a b x hx (hitem b x hbx)
  exact hafter hb

/-- **The step of a call that frees nodes.** -/
theorem frees (h : Ledger tr e.pre) (hv : Valid c e.post) (hF : Frees e.pre e.post freed)
    (hins : inserts e = none) (hkeep : e.post.linked = e.pre.linked ∨ e.op.IsRemoval) :
    Ledger (tr ++ [e]) e.post := by
  have heq : SortedList.inserted (tr ++ [e]) = SortedList.inserted tr := by
    simp [SortedList.inserted, hins]
  have hitem : ∀ a x, e.post.item a = some x → e.pre.item a = some x := by
    intro a x hx
    obtain ⟨n, hn, rfl⟩ := World.item_eq_some.mp hx
    exact hF.item a n hn
  -- a node that is not linked any more holds an item that has left
  have hleft : ∀ a x, e.pre.item a = some x → a ∉ e.post.linked → HasLeft (tr ++ [e]) x := by
    intro a x hx ha
    rcases h.left a x hx with hl | hl
    · rcases hkeep with hk | hk
      · exact absurd (hk ▸ hl) ha
      · exact h.hasLeft hk hx hl ha hitem
    · exact hl.append _
  have hfreed : ∀ x ∈ freed.filterMap e.pre.item, ∃ a ∈ freed, e.pre.item a = some x :=
    fun x hx => List.mem_filterMap.mp hx
  refine ⟨?_, fun a x hx => ?_, fun a b x ha hb => ?_, fun a x hx => ?_, fun x hx => ?_,
    fun x hx => ?_, fun a x hx => ?_⟩
  · rw [hF.destructed]
    refine List.nodup_append.mpr ⟨h.nodup, ?_, fun x hx y hy => ?_⟩
    · exact hF.nodup.filterMap fun a b x ha hb => h.owner a b x ha hb
    · rintro rfl
      obtain ⟨a, -, hax⟩ := hfreed x hy
      exact h.alive a x hax hx
  · rw [hF.destructed, List.mem_append, not_or]
    refine ⟨h.alive a x (hitem a x hx), fun hmem => ?_⟩
    obtain ⟨b, hb, hbx⟩ := hfreed x hmem
    obtain rfl := h.owner a b x (hitem a x hx) hbx
    obtain ⟨n, hn, -⟩ := World.item_eq_some.mp hx
    simp [(hF.gone a hb).2] at hn
  · exact h.owner a b x (hitem a x ha) (hitem b x hb)
  · exact heq ▸ h.inserted a x (hitem a x hx)
  · rw [hF.destructed, List.mem_append] at hx
    rcases hx with hx | hx
    · exact ⟨heq ▸ (h.destructed x hx).1, (h.destructed x hx).2.append _⟩
    · obtain ⟨a, ha, hax⟩ := hfreed x hx
      refine ⟨heq ▸ h.inserted a x hax, hleft a x hax fun hl => ?_⟩
      obtain ⟨n, hn⟩ := hv.exists_of_mem_linked hl
      simp [(hF.gone a ha).2] at hn
  · rw [heq] at hx
    rw [hF.destructed, List.mem_append]
    rcases h.kept x hx with hx | ⟨a, hax⟩
    · exact .inl (.inl hx)
    · -- an item is destructed exactly when its node is freed
      by_cases ha : a ∈ freed
      · exact .inl (.inr (List.mem_filterMap.mpr ⟨a, ha, hax⟩))
      · obtain ⟨n, hn, hd⟩ := World.item_eq_some.mp hax
        obtain ⟨n', hn'⟩ := hF.kept a n hn ha
        refine .inr ⟨a, World.item_eq_some.mpr ⟨n', hn', ?_⟩⟩
        exact Option.some.inj ((hF.item a n' hn').symm.trans hax)
  · by_cases ha : a ∈ e.post.linked
    · exact .inl ha
    · exact .inr (hleft a x (hitem a x hx) ha)

/-- **The step of an insertion** of an item that was not inserted before. -/
theorem insert {addr : ℕ} (h : Ledger tr e.pre) (hI : Inserts c e.pre x addr e.post l₁ l₂)
    (hins : inserts e = some x) (hnew : x ∉ SortedList.inserted tr) :
    Ledger (tr ++ [e]) e.post := by
  have hmem : ∀ y, y ∈ SortedList.inserted (tr ++ [e]) ↔ y ∈ SortedList.inserted tr ∨ y = x := by
    simp [SortedList.inserted, hins]
  -- an item is the new one at its address, or was there before
  have hcases : ∀ a y, e.post.item a = some y → a = addr ∧ y = x ∨
      a ≠ addr ∧ e.pre.item a = some y := by
    intro a y hy
    by_cases ha : a = addr
    · subst ha
      exact .inl ⟨rfl, Option.some.inj (hy.symm.trans hI.item)⟩
    · exact .inr ⟨ha, (hI.item_of_ne a ha).symm.trans hy⟩
  refine ⟨hI.destructed ▸ h.nodup, fun a y hy hdes => ?_, fun a b y ha hb => ?_,
    fun a y hy => ?_, fun y hy => ?_, fun y hy => ?_, fun a y hy => ?_⟩
  · rw [hI.destructed] at hdes
    rcases hcases a y hy with ⟨-, rfl⟩ | ⟨-, hy⟩
    · exact hnew (h.destructed y hdes).1
    · exact h.alive a y hy hdes
  · rcases hcases a y ha with ⟨rfl, rfl⟩ | ⟨-, ha⟩
    · rcases hcases b y hb with ⟨rfl, -⟩ | ⟨-, hb⟩
      · rfl
      · exact absurd (h.inserted b y hb) hnew
    · rcases hcases b y hb with ⟨-, rfl⟩ | ⟨-, hb⟩
      · exact absurd (h.inserted a y ha) hnew
      · exact h.owner a b y ha hb
  · rcases hcases a y hy with ⟨-, rfl⟩ | ⟨-, hy⟩
    · exact (hmem y).mpr (.inr rfl)
    · exact (hmem y).mpr (.inl (h.inserted a y hy))
  · rw [hI.destructed] at hy
    exact ⟨(hmem y).mpr (.inl (h.destructed y hy).1), (h.destructed y hy).2.append _⟩
  · rw [hI.destructed]
    rcases (hmem y).mp hy with hy | rfl
    · rcases h.kept y hy with hy | ⟨a, ha⟩
      · exact .inl hy
      · refine .inr ⟨a, ?_⟩
        rw [hI.item_of_ne a ?_]
        · exact ha
        · rintro rfl
          obtain ⟨n, hn, -⟩ := World.item_eq_some.mp ha
          simp [hI.fresh] at hn
    · exact .inr ⟨addr, hI.item⟩
  · rw [hI.linked]
    rcases hcases a y hy with ⟨rfl, -⟩ | ⟨-, hy⟩
    · simp
    · rcases h.left a y hy with hl | hl
      · rw [hI.linked_before] at hl
        refine .inl ?_
        rcases List.mem_append.mp hl with hl | hl <;> simp [hl]
      · exact .inr (hl.append _)

end Ledger

/-- **One call keeps the ledger.** -/
theorem Ledger.effect (h : Ledger tr e.pre) (hv : Valid c e.pre)
    (heff : Effect c e.pre e.op e.out e.post)
    (hnew : ∀ x, inserts e = some x → x ∉ SortedList.inserted tr) : Ledger (tr ++ [e]) e.post := by
  obtain ⟨w, op, out, w'⟩ := e
  change Effect c w op out w' at heff
  have hv' : Valid c w' := heff.valid hv
  have hsame : Frees w w [] := .of_item_eq (fun _ => rfl) rfl
  cases heff with
  | insertEqual | removeMissing | nextItemEnd | getItem => exact h.frees hv' hsame rfl (.inl rfl)
  | insert hI => exact h.insert hI rfl (hnew _ rfl)
  | remove hrem => exact h.frees hv' hrem.frees rfl (.inr trivial)
  | @destroy w₁ hchain =>
    obtain ⟨freed, hF⟩ := exists_frees_of_removals hv hchain
    exact h.frees hv' (hF.of_eq rfl rfl) rfl (.inr trivial)
  | createIterator _ hset => exact h.frees hv' hset.frees rfl (.inl (hset.linked_eq hv))
  | nextItem _ _ _ hset => exact h.frees hv' hset.frees rfl (.inl (hset.linked_eq hv))
  | destroyIterator _ hset => exact h.frees hv' hset.frees rfl (.inl (hset.linked_eq hv))

/-- The ledger of a run in which no item is offered twice. -/
theorem ledger_of_run (h : Run (machine α) (start c) tr w) (hoff : (offered tr).Nodup) :
    Ledger tr w := by
  revert hoff
  refine h.invariant_trace (I := fun tr w => (offered tr).Nodup → Ledger tr w) (fun _ => ?_) ?_
  · refine ⟨.nil, ?_, ?_, ?_, ?_, ?_, ?_⟩ <;> simp [start, slCreate, World.item, inserted]
  · intro tr e hrun ih he hoff
    rw [offered, List.filterMap_append, List.nodup_append] at hoff
    have hv := valid_of_run hrun
    refine (ih hoff.1).effect hv (.of_occurs he hv) fun x hx hmem => ?_
    refine hoff.2.2 x ((inserted_sublist tr).subset hmem) x ?_ rfl
    simp [offers_of_inserts hx]

/-- An item that a call answers is held by a node after the call. -/
private theorem Effect.item_of_answer (h : Effect c w op out w')
    (hx : out = .item (some x)) : ∃ a, w'.item a = some x := by
  cases h with
  | insertEqual | insert | removeMissing | remove | destroy | createIterator | nextItemEnd
  | destroyIterator => cases hx
  | @getItem i it hi =>
    simp only [Answer.item.injEq, Option.bind_eq_some_iff] at hx
    obtain ⟨a, -, ha⟩ := hx
    exact ⟨a, ha⟩
  | @nextItem i a it node w' q freed hi hcur ha hset hiter hadv =>
    simp only [Answer.item.injEq, Option.bind_eq_some_iff] at hx
    obtain ⟨b, rfl, hb⟩ := hx
    have hi' : w'.iterators.cell i = some { it with current := some b } := by
      rw [hiter, Store.insert_cell_self]
    exact ⟨b, (hset.shrinks.item_eq (hset.valid.exists_current hi' rfl)).trans hb⟩

/-- Without list and iterators there are no nodes. -/
theorem Valid.nodes_dom_eq_empty (hv : Valid c w) (hlist : w.list = none)
    (hiter : w.iterators.dom = ∅) : w.nodes.dom = ∅ := by
  have hroots : ∀ a, w.roots a = 0 := by
    intro a
    have hfirst : w.first = none := by simp [World.first, hlist]
    simp only [World.roots, Pi.add_apply, hfirst, ref_none, resting, Nat.zero_add]
    refine Store.count_eq_zero_iff.mpr fun i it hi => ?_
    have := Store.mem_dom_of_cell hi
    simp [hiter] at this
  -- no node is a root, so each is linked from another one, without end
  have hlinked : ∀ a node, w.nodes.cell a = some node →
      False ∨ ∃ b m, w.nodes.cell b = some m ∧ m.next = some a := by
    intro a node hnode
    have hc := hv.counted.count a node hnode
    have hp := hv.counted.pos a node hnode
    rw [hroots a] at hc
    have hin : 0 < inLinks w.nodes a := by omega
    obtain ⟨b, m, hm, hlink⟩ := Store.exists_of_count_pos hin
    exact .inr ⟨b, m, hm, by simpa [Node.linksTo] using hlink⟩
  by_contra hne
  obtain ⟨a, ha⟩ := Finset.nonempty_iff_ne_empty.mpr hne
  obtain ⟨node, hnode⟩ := Option.isSome_iff_exists.mp ((w.nodes.mem_dom a).mp ha)
  obtain ⟨_, _, hfalse, _⟩ := hv.counted.descends.exists_root hlinked hnode
  exact hfalse

/-- **Every item is destructed once, and not too early.** The destructor is called at most
once on an item, only on inserted items and only after they have left the list; an open
iterator reaches only nodes whose items are not destructed, so neither `SLGetItem` nor
`SLNextItem` ever answers one that is; and when list and iterators are gone, so are all
nodes, and all inserted items have been destructed. -/
theorem items_destructed_once (h : Run (machine α) (start c) tr w) (hoff : (offered tr).Nodup) :
    w.destructed.Nodup ∧
    (∀ x ∈ w.destructed, x ∈ inserted tr ∧ x ∉ w.items ∧ HasLeft tr x) ∧
    (∀ i it b, w.iterators.cell i = some it → Reaches w it.current b →
      ∃ x, w.item b = some x ∧ x ∉ w.destructed) ∧
    (∀ e ∈ tr, ∀ x, e.out = .item (some x) → x ∉ e.post.destructed) ∧
    (∀ op, legal w op → (step w op).isSome) ∧
    (w.list = none → w.iterators.dom = ∅ →
      w.nodes.dom = ∅ ∧ ∀ x ∈ inserted tr, x ∈ w.destructed) := by
  have hv := valid_of_run h
  have hL := ledger_of_run h hoff
  refine ⟨hL.nodup, fun x hx => ⟨(hL.destructed x hx).1, fun hmem => ?_, (hL.destructed x hx).2⟩,
    fun i it b hi hr => ?_, fun e he x hx => ?_, fun op hop => step_isSome_of_run h hop,
    fun hlist hiter => ?_⟩
  · obtain ⟨a, -, ha⟩ := Valid.mem_items.mp hmem
    exact hL.alive a x ha hx
  · obtain ⟨node, hnode⟩ : ∃ node, w.nodes.cell b = some node := by
      obtain ⟨l, hl⟩ := hr
      exact hv.counted.descends.exists_cell_of_path hl fun a ha => hv.exists_current hi ha
    have hb : w.item b = some node.data := World.item_eq_some.mpr ⟨node, hnode, rfl⟩
    exact ⟨node.data, hb, hL.alive b _ hb⟩
  · -- the answer is looked at in the run up to its call
    obtain ⟨tr₁, tr₂, rfl, h₁, hocc, -⟩ := h.split_of_mem he
    have hv₁ := valid_of_run h₁
    have heff := Effect.of_occurs hocc hv₁
    have hL₁ : Ledger (tr₁ ++ [e]) e.post := by
      refine ledger_of_run (h₁.snoc hocc) (hoff.sublist ?_)
      exact ((List.singleton_sublist.mpr (by simp)).append_left tr₁).filterMap offers
    obtain ⟨a, ha⟩ := heff.item_of_answer hx
    exact hL₁.alive a x ha
  · have hdom := hv.nodes_dom_eq_empty hlist hiter
    refine ⟨hdom, fun x hx => ?_⟩
    rcases hL.kept x hx with hx | ⟨a, ha⟩
    · exact hx
    · obtain ⟨node, hnode, -⟩ := World.item_eq_some.mp ha
      have := Store.mem_dom_of_cell hnode
      simp [hdom] at this

/-- The session brought to its end: the list goes before the iterator. -/
def closedSession : List (Op ℤ) := session ++ [.nextItem 0, .destroy, .destroyIterator 0]

private theorem exec_closedSession :
    ((machine ℤ).exec (start compareInt) closedSession).isSome := by
  decide +kernel

/-- The trace of the closed session and the world it leads to. -/
def closedRun : List (ListEvent ℤ) × World ℤ :=
  ((machine ℤ).exec (start compareInt) closedSession).get exec_closedSession

theorem run_closedSession : Run (machine ℤ) (start compareInt) closedRun.1 closedRun.2 :=
  Machine.run_get exec_closedSession

/-- The destructor calls of the closed session. -/
theorem items_destructed_once_closedSession :
    closedRun.2.destructed = [3, 2, 1] ∧ closedRun.2.nodes.dom = ∅ ∧
      ∀ x ∈ inserted closedRun.1, x ∈ closedRun.2.destructed :=
  have hall := items_destructed_once run_closedSession (by decide +kernel)
  ⟨by decide +kernel, hall.2.2.2.2.2 (by rfl) (by decide +kernel)⟩

end Cs214.SortedList
