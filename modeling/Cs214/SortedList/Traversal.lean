import Cs214.SortedList.OrderedSet

/-!
# What an iterator yields

An iterator is followed from its creation through calls of all kinds, its own and others.
`traversal_yields` says that the items it yields are strictly descending and that it meets
every item that stays in the list until the iterator is exhausted.

Both rest on what a call keeps: nodes that stay keep their items (`Effect.item_eq`), the
other iterators rest where they rested (`Effect.iterator_eq`), and a listed item that is
reached from a node and stays listed is still reached from it (`Effect.reaches`). A removed
node is no exception to the last fact, for its link is frozen and the nodes it leads to keep
theirs; and the nodes an advancing iterator jumps over are freed, hence not listed.
-/

namespace Cs214.SortedList

variable {α : Type} {c : Comparator α} {w w' : World α} {op : Op α} {out : Answer α}
  {a b i : ℕ} {p q : Option ℕ} {node : Node α} {it : SortedListIterator} {l freed : List ℕ}
  {x y z : α} {tr₀ tr : List (ListEvent α)} {e e₀ : ListEvent α}

/-! ### What a call keeps -/

/-- Nodes that stay keep their items. -/
private theorem Effect.item_eq (h : Effect c w op out w') (hv : Valid c w)
    (ha : w.nodes.cell a = some node) (ha' : ∃ n', w'.nodes.cell a = some n') :
    w'.item a = w.item a := by
  have hfrees : ∀ {freed : List ℕ}, Frees w w' freed → w'.item a = w.item a := by
    intro freed hF
    obtain ⟨n', hn'⟩ := ha'
    rw [hF.item a n' hn', World.item, hn']
    rfl
  cases h with
  | insertEqual | removeMissing | nextItemEnd | getItem => rfl
  | insert h =>
    refine h.item_of_ne a ?_
    rintro rfl
    simp [h.fresh] at ha
  | remove h => exact hfrees h.frees
  | destroy hchain =>
    obtain ⟨freed, hF⟩ := exists_frees_of_removals hv hchain
    exact hfrees (hF.of_eq rfl rfl)
  | createIterator _ h => exact hfrees h.frees
  | nextItem _ _ _ h => exact hfrees h.frees
  | destroyIterator _ h => exact hfrees h.frees

/-- A call leaves the iterators alone that it is not given. -/
private theorem Effect.iterator_eq (h : Effect c w op out w') (hv : Valid c w)
    (hi : w.iterators.cell i = some it) (hnext : op ≠ .nextItem i)
    (hdestroy : op ≠ .destroyIterator i) : w'.iterators.cell i = some it := by
  cases h with
  | insertEqual | removeMissing | nextItemEnd | getItem => exact hi
  | insert h => exact h.iterators ▸ hi
  | remove h => exact h.iterators ▸ hi
  | @destroy w₁ hchain =>
    exact iterators_of_removals hv hchain ▸ hi
  | @createIterator j w' hj _ hiter =>
    have hij : i ≠ j := by
      rintro rfl
      exact hj (Store.mem_dom_of_cell hi)
    rw [hiter, Store.insert_cell_of_ne _ _ hij, hi]
  | @nextItem j a jt node w' q freed _ _ _ _ hiter =>
    have hij : i ≠ j := by
      rintro rfl
      exact hnext rfl
    rw [hiter, Store.insert_cell_of_ne _ _ hij, hi]
  | @destroyIterator j jt w' freed _ _ hiter =>
    have hij : i ≠ j := by
      rintro rfl
      exact hdestroy rfl
    rw [hiter, Store.erase_cell_of_ne _ hij, hi]

/-- **Reachability of listed items.** An item that is listed before and after a call stays in
its node, and the node is still reached from every node that stays. -/
theorem Effect.reaches (h : Effect c w op out w') (hv : Valid c w)
    (ha : ∃ n, w'.nodes.cell a = some n) (hb : b ∈ w.linked) (hx : w.item b = some x)
    (hx' : x ∈ w'.items) (hr : Reaches w (some a) b) :
    b ∈ w'.linked ∧ w'.item b = some x ∧ Reaches w' (some a) b := by
  have hsettles : ∀ {freed : List ℕ}, Settles c w w' freed →
      b ∈ w'.linked ∧ w'.item b = some x ∧ Reaches w' (some a) b := by
    intro freed hset
    have hb' : b ∈ w'.linked := (hset.linked_eq hv).symm ▸ hb
    exact ⟨hb', (hset.shrinks.item_eq (hset.valid.exists_of_mem_linked hb')).trans hx,
      hset.shrinks.reaches hset.valid ha hr⟩
  cases h with
  | insertEqual | removeMissing | nextItemEnd | getItem => exact ⟨hb, hx, hr⟩
  | @insert y addr w' l₁ l₂ h =>
    have hne : b ≠ addr := by
      rintro rfl
      obtain ⟨n, hn⟩ := hv.exists_of_mem_linked hb
      simp [h.fresh] at hn
    refine ⟨?_, (h.item_of_ne b hne).trans hx, h.reaches _ b hr⟩
    rw [h.linked_before] at hb
    rw [h.linked]
    rcases List.mem_append.mp hb with hb | hb <;> simp [hb]
  | @remove y w' l₁ l₂ freed r h =>
    obtain ⟨y, -, hry, -, hmem⟩ := h.mem_items_iff hv
    -- the item is still in the list, so its node is not the removed one
    have hne : b ≠ r := by
      rintro rfl
      exact ((hmem x).mp hx').2 (Option.some.inj (hx.symm.trans hry))
    have hb' : b ∈ w'.linked := by
      rw [h.linked_before] at hb
      rw [h.linked]
      rcases List.mem_append.mp hb with hb | hb
      · simp [hb]
      · rcases List.mem_cons.mp hb with hb | hb
        · exact absurd hb hne
        · simp [hb]
    obtain ⟨n', hn'⟩ := h.valid.exists_of_mem_linked hb'
    refine ⟨hb', ?_, h.reaches a b ha hne hr⟩
    rw [← hx, h.frees.item b n' hn', World.item, hn']
    rfl
  | destroy => simp [items_dropList] at hx'
  | createIterator _ hset => exact hsettles hset
  | nextItem _ _ _ hset => exact hsettles hset
  | destroyIterator _ hset => exact hsettles hset

/-- What is reached from `p` and is not on the way to `q` is reached from `q`. -/
theorem Reaches.of_path (h : w.nodes.Path Node.next q p l) (hr : Reaches w p b) (hb : b ∉ l) :
    Reaches w q b := by
  induction h with
  | nil => exact hr
  | cons hv _ ih =>
    rcases hr.cases_head with hab | ⟨a, node, hab, hn, hr⟩
    · exact absurd (Option.some.inj hab).symm (List.ne_of_not_mem_cons hb)
    · obtain rfl := Option.some.inj hab
      obtain rfl := Option.some.inj (hv.symm.trans hn)
      exact ih hr (List.not_mem_of_not_mem_cons hb)

/-- The way of an advancing iterator. -/
theorem Advances.path (h : Advances w a node q freed) (ha : w.nodes.cell a = some node) :
    ∃ l, w.nodes.Path Node.next q (some a) (a :: l) ∧ ∀ d ∈ l, d ∈ freed := by
  rcases h with ⟨-, rfl, -⟩ | ⟨h1, hpath, -, hstop⟩
  · exact ⟨[], .cons ha .nil, by simp⟩
  · cases freed with
    | nil => exact absurd h1 (hstop a node (Store.Path.nil_iff.mp hpath).symm ha)
    | cons d l =>
      obtain ⟨had, -⟩ := Store.Path.cons_iff.mp hpath
      obtain rfl := Option.some.inj had
      exact ⟨l, hpath, fun d hd => List.mem_cons_of_mem _ hd⟩

/-- A listed node on the chain of an advancing iterator is on the chain of the node it comes to
rest on, when the nodes jumped over are not listed. -/
theorem Advances.reaches_of_listed (h : Advances w a node q freed)
    (ha : w.nodes.cell a = some node) (hfreed : ∀ d ∈ freed, d ∉ w.linked) (hb : b ∈ w.linked)
    (hba : b ≠ a) (hr : Reaches w (some a) b) : ∃ d, q = some d ∧ Reaches w (some d) b := by
  obtain ⟨l, hpath, hl⟩ := h.path ha
  have hbl : b ∉ a :: l := by
    rw [List.mem_cons, not_or]
    exact ⟨hba, fun hmem => hfreed b (hl b hmem) hb⟩
  have hq := hr.of_path hpath hbl
  rcases q with _ | d
  · exact absurd hq (Reaches.not_none b)
  · exact ⟨d, rfl, hq⟩

/-- What an iterator function frees was not listed. -/
theorem Settles.not_listed (h : Settles c w w' freed) (hv : Valid c w) :
    ∀ d ∈ freed, d ∉ w.linked := by
  intro d hd hl
  obtain ⟨n, hn⟩ := h.valid.exists_of_mem_linked ((h.linked_eq hv).symm ▸ hl)
  simp [(h.frees.gone d hd).2] at hn

/-! ### The items yielded -/

/-- The item iterator `i` yields in a call. -/
def yieldedBy (i : ℕ) (e : ListEvent α) : Option α :=
  match e.op, e.out with
  | .nextItem j, .item x => if j = i then x else none
  | _, _ => none

/-- **The items iterator `i` yields**: what `SLGetItem` answers in the world `w`, right after
the creation, and then what the calls of `SLNextItem` in `tr` answer. -/
def yields (i : ℕ) (w : World α) (tr : List (ListEvent α)) : List α :=
  (slGetItem w i).join.toList ++ tr.filterMap (yieldedBy i)

/-- Iterator `i` has arrived at the end. -/
def Exhausted (w : World α) (i : ℕ) : Prop :=
  ∃ it, w.iterators.cell i = some it ∧ it.current = none

/-- The order of the items `ys` yielded so far by iterator `i`: they are descending, and the
last one is the item the iterator rests on. -/
structure Descending (c : Comparator α) (i : ℕ) (ys : List α) (w : World α) : Prop where
  isOpen : ∃ it, w.iterators.cell i = some it
  pairwise : ys.Pairwise c.gt
  last : ∀ it a x, w.iterators.cell i = some it → it.current = some a → w.item a = some x →
    x ∈ ys ∧ ∀ y ∈ ys, y = x ∨ c.gt y x

/-- `x` has been yielded by iterator `i`, or the iterator is not at its end and will come to
`x` if `x` is listed. -/
def Ahead (i : ℕ) (x : α) (ys : List α) (w : World α) : Prop :=
  x ∈ ys ∨ ∃ it a, w.iterators.cell i = some it ∧ it.current = some a ∧
    (x ∈ w.items → ∃ b ∈ w.linked, w.item b = some x ∧ b ≠ a ∧ Reaches w (some a) b)

/-- A call that does not advance iterator `i` makes it yield nothing. -/
private theorem yieldedBy_eq_none (h : e.op ≠ .nextItem i) : yieldedBy i e = none := by
  obtain ⟨w, op, out, w'⟩ := e
  cases op with
  | nextItem j =>
    have hji : j ≠ i := by
      rintro rfl
      exact h rfl
    cases out <;> simp [yieldedBy, hji]
  | _ => rfl

@[simp] theorem yieldedBy_nextItem (w w' : World α) (i : ℕ) (x : Option α) :
    yieldedBy i ⟨w, .nextItem i, .item x, w'⟩ = x := by
  simp [yieldedBy]

/-- **One call keeps the order.** -/
theorem Descending.effect {ys : List α} (h : Descending c i ys w) (hv : Valid c w)
    (heff : Effect c w op out w') (hop : op ≠ .destroyIterator i) :
    Descending c i (ys ++ (yieldedBy i ⟨w, op, out, w'⟩).toList) w' := by
  obtain ⟨it, hi⟩ := h.isOpen
  have hv' := heff.valid hv
  by_cases hnext : op = .nextItem i
  · subst hnext
    cases heff with
    | nextItemEnd => simpa using h
    | @nextItem _ a jt node w' q freed hj hcur ha hset hiter hadv =>
      obtain rfl := Option.some.inj (hi.symm.trans hj)
      have hi' : w'.iterators.cell i = some { it with current := q } := by
        rw [hiter, Store.insert_cell_self]
      rw [yieldedBy_nextItem]
      rcases q with _ | d
      · refine ⟨⟨_, hi'⟩, by simpa using h.pairwise, fun kt b x hk hb _ => ?_⟩
        obtain rfl := Option.some.inj (hi'.symm.trans hk)
        cases hb
      · obtain ⟨n', hn'⟩ := hv'.exists_current hi' rfl
        obtain ⟨m, hm, -, -⟩ := hset.shrinks d n' hn'
        obtain ⟨hx, hlast⟩ := h.last it a node.data hi hcur (by simp [World.item, ha])
        -- the new node is behind the old one, hence smaller
        obtain ⟨l, hpath, -⟩ := hadv.path ha
        obtain ⟨-, v, hav, hpath⟩ := Store.Path.cons_iff.mp hpath
        obtain rfl := Option.some.inj (ha.symm.trans hav)
        have hgt : c.gt node.data m.data := hv.gt_of_reaches ha ⟨l, hpath⟩ hm
        have hall : ∀ y ∈ ys, c.gt y m.data := by
          intro y hy
          rcases hlast y hy with rfl | hy
          · exact hgt
          · exact trans_of c.gt hy hgt
        have hd : w.item d = some m.data := by simp [World.item, hm]
        simp only [Option.bind_some, hd, Option.toList_some]
        refine ⟨⟨_, hi'⟩, List.pairwise_append.mpr ⟨h.pairwise, by simp, by simpa using hall⟩,
          fun kt b x hk hb hxb => ?_⟩
        obtain rfl := Option.some.inj (hi'.symm.trans hk)
        obtain rfl := Option.some.inj hb
        rw [hset.shrinks.item_eq ⟨n', hn'⟩, hd] at hxb
        obtain rfl := Option.some.inj hxb
        refine ⟨by simp, fun y hy => ?_⟩
        rcases List.mem_append.mp hy with hy | hy
        · exact .inr (hall y hy)
        · exact .inl (List.mem_singleton.mp hy)
  · have hi' := heff.iterator_eq hv hi hnext hop
    rw [yieldedBy_eq_none hnext, Option.toList_none, List.append_nil]
    refine ⟨⟨it, hi'⟩, h.pairwise, fun jt a x hj ha hx => ?_⟩
    obtain rfl := Option.some.inj (hi'.symm.trans hj)
    obtain ⟨n, hn⟩ := hv.exists_current hi ha
    rw [heff.item_eq hv hn (hv'.exists_current hi' ha)] at hx
    exact h.last it a x hi ha hx

/-- **One call keeps a listed item ahead.** -/
theorem Ahead.effect {ys : List α} (h : Ahead i x ys w) (hv : Valid c w)
    (heff : Effect c w op out w') (hop : op ≠ .destroyIterator i)
    (hstay : ¬Exhausted w i → x ∈ w.items) :
    Ahead i x (ys ++ (yieldedBy i ⟨w, op, out, w'⟩).toList) w' := by
  have hv' := heff.valid hv
  rcases h with hx | ⟨it, a, hi, hcur, hahead⟩
  · exact .inl (by simp [hx])
  have hopen : ¬Exhausted w i := by
    rintro ⟨jt, hj, hnone⟩
    obtain rfl := Option.some.inj (hi.symm.trans hj)
    simp [hcur] at hnone
  obtain ⟨b, hb, hxb, hba, hr⟩ := hahead (hstay hopen)
  by_cases hnext : op = .nextItem i
  · subst hnext
    cases heff with
    | nextItemEnd hj hnone =>
      obtain rfl := Option.some.inj (hi.symm.trans hj)
      simp [hcur] at hnone
    | @nextItem _ a' jt node w' q freed hj hcur' ha hset hiter hadv =>
      obtain rfl := Option.some.inj (hi.symm.trans hj)
      obtain rfl := Option.some.inj (hcur.symm.trans hcur')
      have hi' : w'.iterators.cell i = some { it with current := q } := by
        rw [hiter, Store.insert_cell_self]
      obtain ⟨d, rfl, hq⟩ := hadv.reaches_of_listed ha (hset.not_listed hv) hb hba hr
      by_cases hdb : d = b
      · subst hdb
        exact .inl (by simp [hxb])
      · -- another item is answered, and the node of `x` is still ahead
        refine .inr ⟨_, d, hi', rfl, fun hx' => ?_⟩
        have heff' : Effect c w (.nextItem i) (.item ((some d).bind w.item)) w' :=
          .nextItem hi hcur ha hset hiter hadv
        obtain ⟨h₁, h₂, h₃⟩ := heff'.reaches hv (hv'.exists_current hi' rfl) hb hxb hx' hq
        exact ⟨b, h₁, h₂, Ne.symm hdb, h₃⟩
  · have hi' := heff.iterator_eq hv hi hnext hop
    rw [yieldedBy_eq_none hnext, Option.toList_none, List.append_nil]
    refine .inr ⟨it, a, hi', hcur, fun hx' => ?_⟩
    obtain ⟨h₁, h₂, h₃⟩ := heff.reaches hv (hv'.exists_current hi' hcur) hb hxb hx' hr
    exact ⟨b, h₁, h₂, hba, h₃⟩

/-! ### Traversals -/

/-- At its creation an iterator rests on the first node. -/
private theorem Effect.createIterator_current (h : Effect c w (.createIterator i) out w') :
    w'.iterators.cell i = some ⟨w.first, .func⟩ ∧ w'.first = w.first := by
  cases h with
  | createIterator _ hset hiter => exact ⟨by rw [hiter, Store.insert_cell_self], hset.first_eq⟩

/-- What `SLGetItem` answers starts the order. -/
private theorem descending_getItem (hv : Valid c w) (hi : w.iterators.cell i = some it) :
    Descending c i (slGetItem w i).join.toList w := by
  rw [slGetItem_spec hv hi, Option.join_some]
  refine ⟨⟨it, hi⟩, ?_, fun jt a x hj ha hx => ?_⟩
  · rcases it.current.bind w.item with _ | x <;> simp
  · obtain rfl := Option.some.inj (hi.symm.trans hj)
    simp [ha, hx]

/-- All listed items are ahead of an iterator that rests on the first node. -/
private theorem ahead_getItem (hv : Valid c w) (hi : w.iterators.cell i = some it)
    (hfirst : it.current = w.first) (hx : x ∈ w.items) :
    Ahead i x (slGetItem w i).join.toList w := by
  obtain ⟨b, hb, hxb⟩ := Valid.mem_items.mp hx
  have hr := hv.mem_linked_iff.mp hb
  rw [slGetItem_spec hv hi, Option.join_some, hfirst]
  rcases hf : w.first with _ | a
  · exact absurd (hf ▸ hr) (Reaches.not_none b)
  · by_cases hba : b = a
    · subst hba
      exact .inl (by simp [hxb])
    · exact .inr ⟨it, a, hi, hfirst.trans hf, fun _ => ⟨b, hb, hxb, hba, hf ▸ hr⟩⟩

/-- The items yielded with one more call. -/
private theorem yields_snoc (i : ℕ) (w : World α) (tr : List (ListEvent α)) (e : ListEvent α) :
    yields i w (tr ++ [e]) = yields i w tr ++ (yieldedBy i e).toList := by
  rw [yields, yields, List.filterMap_append, List.append_assoc]
  rcases h : yieldedBy i e with _ | x <;> simp [h]

/-- **Traversals.** The items an iterator yields are strictly descending, and once it is
exhausted, every item that was listed from its creation until then is among them, at exactly
one position. -/
theorem traversal_yields (h₀ : Run (machine α) (start c) tr₀ e₀.pre)
    (he₀ : e₀.Occurs (machine α)) (hop : e₀.op = .createIterator i)
    (h : Run (machine α) e₀.post tr w) (hopen : ∀ e ∈ tr, e.op ≠ .destroyIterator i) :
    (yields i e₀.post tr).Pairwise c.gt ∧
      (Exhausted w i → ∀ x ∈ e₀.post.items,
        (∀ e ∈ tr, ¬Exhausted e.pre i → x ∈ e.pre.items) →
        ∃! n : ℕ, (yields i e₀.post tr)[n]? = some x) := by
  have hv₀ : Valid c e₀.post := valid_of_run (h₀.snoc he₀)
  have hcreate := (hop ▸ Effect.of_occurs he₀ (valid_of_run h₀)).createIterator_current
  have hdesc : Descending c i (yields i e₀.post tr) w := by
    revert hopen
    refine h.invariant_trace (I := fun tr w => (∀ e ∈ tr, e.op ≠ .destroyIterator i) →
      Descending c i (yields i e₀.post tr) w) (fun _ => ?_) fun tr e htr ih he hopen => ?_
    · simpa [yields] using descending_getItem hv₀ hcreate.1
    · have hv : Valid c e.pre := valid_of_run ((h₀.snoc he₀).trans htr)
      rw [yields_snoc]
      exact (ih fun f hf => hopen f (by simp [hf])).effect hv (.of_occurs he hv)
        (hopen e (by simp))
  refine ⟨hdesc.pairwise, fun hend x hx hstay => ?_⟩
  have hahead : Ahead i x (yields i e₀.post tr) w := by
    clear hend hdesc
    revert hopen hstay
    refine h.invariant_trace (I := fun tr w => (∀ e ∈ tr, e.op ≠ .destroyIterator i) →
      (∀ e ∈ tr, ¬Exhausted e.pre i → x ∈ e.pre.items) → Ahead i x (yields i e₀.post tr) w)
      (fun _ _ => ?_) fun tr e htr ih he hopen hstay => ?_
    · simpa [yields] using ahead_getItem hv₀ hcreate.1 hcreate.2.symm hx
    · have hv : Valid c e.pre := valid_of_run ((h₀.snoc he₀).trans htr)
      rw [yields_snoc]
      exact (ih (fun f hf => hopen f (by simp [hf])) fun f hf => hstay f (by simp [hf])).effect hv
        (.of_occurs he hv) (hopen e (by simp)) (hstay e (by simp))
  rcases hahead with hmem | ⟨it, a, hi, hcur, -⟩
  · -- it was answered, and in a strictly descending list only once
    obtain ⟨n, hn⟩ := List.mem_iff_getElem?.mp hmem
    refine ⟨n, hn, fun k hk => ?_⟩
    have hnd : (yields i e₀.post tr).Nodup := by
      refine hdesc.pairwise.imp fun {y z} hgt => ?_
      rintro rfl
      exact irrefl_of c.gt y hgt
    have hlen : k < (yields i e₀.post tr).length := (List.getElem?_eq_some_iff.mp hk).1
    exact (List.getElem?_inj hlen hnd).mp (hk.trans hn.symm)
  · obtain ⟨jt, hj, hnone⟩ := hend
    obtain rfl := Option.some.inj (hi.symm.trans hj)
    simp [hcur] at hnone

/-- A list of two items. -/
def prelude : List (Op ℤ) := [.insert 1 0, .insert 3 1]

/-- A traversal under which one item comes and one goes. -/
def traversal : List (Op ℤ) := [.insert 2 2, .remove 3, .nextItem 0, .nextItem 0, .nextItem 0]

private theorem exec_prelude : ((machine ℤ).exec (start compareInt) prelude).isSome := by
  decide +kernel

/-- The world in which the traversal begins. -/
def preludeWorld : World ℤ := (((machine ℤ).exec (start compareInt) prelude).get exec_prelude).2

/-- The creation of the iterator. -/
def creation : ListEvent ℤ :=
  (machine ℤ).event preludeWorld (.createIterator 0) (by decide +kernel)

private theorem exec_traversal : ((machine ℤ).exec creation.post traversal).isSome := by
  decide +kernel

/-- The items of this traversal: `3` is met before it goes, `2` comes in time. -/
theorem traversal_yields_traversal :
    let r := ((machine ℤ).exec creation.post traversal).get exec_traversal
    yields 0 creation.post r.1 = [3, 2, 1] ∧
      ∃! n : ℕ, (yields 0 creation.post r.1)[n]? = some 1 :=
  have hstay : ∀ e ∈ (((machine ℤ).exec creation.post traversal).get exec_traversal).1,
      (1 : ℤ) ∈ e.pre.items := by decide +kernel
  ⟨by decide +kernel,
    (traversal_yields (Machine.run_get exec_prelude)
      (Machine.event_occurs (by decide +kernel) (by decide +kernel)) rfl
      (Machine.run_get exec_traversal) (by decide +kernel)).2 ⟨_, rfl, rfl⟩ 1 (by decide +kernel)
      fun e he _ => hstay e he⟩

end Cs214.SortedList
