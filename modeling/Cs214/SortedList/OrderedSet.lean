import Cs214.SortedList.Effect

/-!
# The list is a finite ordered set

The abstract model of the list is a set of items no two of which compare equal, and
`setStep` says what each call makes of it: `SLInsert` adds the item unless an equal one is
present, `SLRemove` takes the equal item out, `SLDestroy` empties the set and the iterator
functions leave it alone. `items_refine_set` is the refinement: along every run the linked
items are that set, in strictly descending order, and every call answers what the set
prescribes (`CallContract`).
-/

namespace Cs214.SortedList

variable {α : Type} {c : Comparator α} {w w' : World α} {op : Op α} {out : Answer α}
  {a b : ℕ} {l l₁ l₂ freed : List ℕ} {x y : α} {tr : List (ListEvent α)}

open Classical in
/-- What a call makes of the set of listed items. -/
noncomputable def setStep (c : Comparator α) (S : Set α) : Op α → Set α
  | .insert x _ => if ∃ y ∈ S, c.compare y x = 0 then S else Insert.insert x S
  | .remove x => {y ∈ S | c.compare y x ≠ 0}
  | .destroy => ∅
  | _ => S

/-- The set a sequence of calls leads to, from the empty list. -/
noncomputable def setOf (c : Comparator α) (ops : List (Op α)) : Set α :=
  ops.foldl (setStep c) ∅

/-- **The contract of each call** in terms of the items before and after it. -/
def CallContract (c : Comparator α) (e : ListEvent α) : Prop :=
  match e.op with
  | .insert x _ =>
    (e.out = .int 1 ∧ (∀ y ∈ e.pre.items, c.compare y x ≠ 0) ∧
        ∀ y, y ∈ e.post.items ↔ y = x ∨ y ∈ e.pre.items) ∨
      (e.out = .int 0 ∧ (∃ y ∈ e.pre.items, c.compare y x = 0) ∧ e.post = e.pre)
  | .remove x =>
    (e.out = .int 1 ∧ ∃ y ∈ e.pre.items, c.compare y x = 0 ∧
        ∀ z, z ∈ e.post.items ↔ z ∈ e.pre.items ∧ z ≠ y) ∨
      (e.out = .int 0 ∧ (∀ y ∈ e.pre.items, c.compare y x ≠ 0) ∧ e.post = e.pre)
  | .destroy => e.post.items = []
  | .createIterator _ | .nextItem _ | .getItem _ | .destroyIterator _ =>
    e.post.items = e.pre.items

/-! ### Items under the effects -/

/-- The items of the linked nodes, split like the nodes. -/
theorem items_of_linked (h : w.linked = l) : w.items = l.filterMap w.item := by
  rw [World.items, h]

/-- An insertion adds its item between the larger and the smaller ones. -/
theorem Inserts.items {addr : ℕ} (h : Inserts c w x addr w' l₁ l₂) (hv : Valid c w) :
    w.items = l₁.filterMap w.item ++ l₂.filterMap w.item ∧
      w'.items = l₁.filterMap w.item ++ x :: l₂.filterMap w.item := by
  have hne : ∀ d ∈ l₁ ++ l₂, d ≠ addr := by
    rintro d hd rfl
    obtain ⟨n, hn⟩ := hv.exists_of_mem_linked (h.linked_before ▸ hd)
    simp [h.fresh] at hn
  have h₁ : l₁.filterMap w'.item = l₁.filterMap w.item :=
    List.filterMap_congr fun d hd => h.item_of_ne d (hne d (by simp [hd]))
  have h₂ : l₂.filterMap w'.item = l₂.filterMap w.item :=
    List.filterMap_congr fun d hd => h.item_of_ne d (hne d (by simp [hd]))
  refine ⟨by rw [items_of_linked h.linked_before, List.filterMap_append], ?_⟩
  rw [items_of_linked h.linked, List.filterMap_append, List.filterMap_cons, h.item, h₁, h₂]

/-- A removal takes the item of one node out. -/
private theorem Removes.items {r : ℕ} (h : Removes c w x w' l₁ r l₂ freed) :
    ∃ y, w.item r = some y ∧ c.compare y x = 0 ∧
      w.items = l₁.filterMap w.item ++ y :: l₂.filterMap w.item ∧
      w'.items = l₁.filterMap w.item ++ l₂.filterMap w.item := by
  obtain ⟨n, hn, hx⟩ := h.equal
  have hr : w.item r = some n.data := by simp [World.item, hn]
  have hsame : ∀ d ∈ l₁ ++ l₂, w'.item d = w.item d := by
    intro d hd
    obtain ⟨n', hn'⟩ := h.valid.exists_of_mem_linked (h.linked ▸ hd)
    rw [h.frees.item d n' hn', World.item, hn']
    rfl
  refine ⟨n.data, hr, hx, ?_, ?_⟩
  · rw [items_of_linked h.linked_before, List.filterMap_append, List.filterMap_cons, hr]
  · rw [items_of_linked h.linked, List.filterMap_congr hsame, List.filterMap_append]

/-- Membership after a removal. -/
theorem Removes.mem_items_iff {r : ℕ} (h : Removes c w x w' l₁ r l₂ freed) (hv : Valid c w) :
    ∃ y ∈ w.items, w.item r = some y ∧ c.compare y x = 0 ∧
      ∀ z, z ∈ w'.items ↔ z ∈ w.items ∧ z ≠ y := by
  obtain ⟨y, hr, hx, hbefore, hafter⟩ := h.items
  refine ⟨y, by simp [hbefore], hr, hx, fun z => ?_⟩
  have hpw := hv.items_pairwise
  rw [hbefore] at hpw ⊢
  rw [hafter]
  obtain ⟨-, htail, hcross⟩ := List.pairwise_append.mp hpw
  have hy : y ∉ l₁.filterMap w.item ++ l₂.filterMap w.item := by
    intro hmem
    rcases List.mem_append.mp hmem with hmem | hmem
    · exact irrefl_of c.gt y (hcross y hmem y (by simp))
    · exact irrefl_of c.gt y ((List.pairwise_cons.mp htail).1 y hmem)
  constructor
  · intro hz
    refine ⟨?_, fun hzy => hy (hzy ▸ hz)⟩
    rcases List.mem_append.mp hz with hz | hz
    · simp [hz]
    · simp [hz]
  · rintro ⟨hz, hzy⟩
    rcases List.mem_append.mp hz with hz | hz
    · simp [hz]
    · rcases List.mem_cons.mp hz with rfl | hz
      · exact absurd rfl hzy
      · simp [hz]

/-- At most one listed item compares equal to a given one. -/
theorem Valid.items_unique {y z : α} (hv : Valid c w) (hy : y ∈ w.items) (hz : z ∈ w.items)
    (hyz : c.compare y z = 0) : y = z := by
  have hpw := hv.items_pairwise
  refine List.Pairwise.forall_of_forall_of_flip (R := fun u v => c.compare u v = 0 → u = v)
    (fun u _ _ => rfl) ?_ ?_ hy hz hyz
  · exact hpw.imp fun hgt he => absurd he (c.compare_ne_zero_of_gt hgt)
  · exact hpw.imp fun hgt he => absurd (c.compare_comm.mp he) (c.compare_ne_zero_of_gt hgt)

/-- The items of a list that was destroyed. -/
theorem items_dropList (w : World α) : ({ w with list := none } : World α).items = [] := by
  rw [World.items, Valid.linked_eq_nil_of_no_list rfl, List.filterMap_nil]

/-! ### Contract and set semantics of a call -/

/-- **The effect of a call meets its contract.** -/
theorem Effect.callContract (h : Effect c w op out w') (hv : Valid c w) :
    CallContract c ⟨w, op, out, w'⟩ := by
  cases h with
  | @insertEqual x y addr hy he => exact .inr ⟨rfl, ⟨y, hy, he⟩, rfl⟩
  | @insert x addr w' l₁ l₂ h h₁ h₂ =>
    obtain ⟨hbefore, hafter⟩ := h.items hv
    refine .inl ⟨rfl, fun y hy he => ?_, fun y => ?_⟩
    · obtain ⟨a, ha, hya⟩ := Valid.mem_items.mp hy
      obtain ⟨n, hn, rfl⟩ := World.item_eq_some.mp hya
      rw [h.linked_before] at ha
      rcases List.mem_append.mp ha with ha | ha
      · exact c.compare_ne_zero_of_gt (h₁ a ha n hn) he
      · exact c.compare_ne_zero_of_gt (h₂ a ha n hn) (c.compare_comm.mp he)
    · simp only [hbefore, hafter, List.mem_append, List.mem_cons]
      tauto
  | removeMissing h => exact .inr ⟨rfl, h, rfl⟩
  | remove h =>
    obtain ⟨y, hy, -, hx, hmem⟩ := h.mem_items_iff hv
    exact .inl ⟨rfl, y, hy, hx, hmem⟩
  | destroy => exact items_dropList _
  | createIterator _ h => exact h.items_eq hv
  | nextItemEnd | getItem => rfl
  | nextItem _ _ _ h => exact h.items_eq hv
  | destroyIterator _ h => exact h.items_eq hv

/-- The contract of a call determines the set after it. -/
private theorem CallContract.setStep {e : ListEvent α} (h : CallContract c e) (hv : Valid c e.pre) :
    {y | y ∈ e.post.items} = setStep c {y | y ∈ e.pre.items} e.op := by
  obtain ⟨w, op, out, w'⟩ := e
  ext z
  cases op with
  | insert x addr =>
    rcases h with ⟨-, hne, hmem⟩ | ⟨-, hex, hpost⟩
    · have hno : ¬∃ y ∈ {y | y ∈ w.items}, c.compare y x = 0 := by
        rintro ⟨y, hy, he⟩
        exact hne y hy he
      simp only [SortedList.setStep, if_neg hno]
      exact hmem z
    · obtain rfl : w' = w := hpost
      have hex : ∃ y ∈ {y | y ∈ w'.items}, c.compare y x = 0 := hex
      simp only [SortedList.setStep, if_pos hex]
  | remove x =>
    rcases h with ⟨-, y, hy, hx, hmem⟩ | ⟨-, hne, hpost⟩
    · refine (hmem z).trans (and_congr_right fun hz => ?_)
      refine not_congr ⟨fun hzy => hzy ▸ hx, fun hzx => hv.items_unique hz hy ?_⟩
      rw [c.congr_left z x y hzx, c.compare_comm]
      exact hx
    · obtain rfl : w' = w := hpost
      exact ⟨fun hz => ⟨hz, hne z hz⟩, fun hz => hz.1⟩
  | destroy =>
    have hnil : w'.items = [] := h
    simp [hnil, SortedList.setStep]
  | createIterator _ | nextItem _ | getItem _ | destroyIterator _ =>
    have heq : w'.items = w.items := h
    simp [heq, SortedList.setStep]

/-- **The list refines a finite ordered set.** -/
theorem items_refine_set (h : Run (machine α) (start c) tr w) :
    w.items.Pairwise c.gt ∧ {x | x ∈ w.items} = setOf c (tr.map Event.op) ∧
      (∀ e ∈ tr, CallContract c e) ∧ ∀ op, legal w op → (step w op).isSome := by
  refine ⟨(valid_of_run h).items_pairwise, ?_, fun e he => ?_,
    fun op hop => step_isSome_of_run h hop⟩
  · refine h.invariant_trace (I := fun tr w => {x | x ∈ w.items} = setOf c (tr.map Event.op)) ?_ ?_
    · ext x
      simp [setOf, World.items, World.linked, start, slCreate, World.first, Store.trail,
        Store.follow]
    · intro tr e htr ih he
      have hv := valid_of_run htr
      have heff := Effect.of_occurs he hv
      rw [(heff.callContract hv).setStep hv, ih, setOf, setOf, List.map_append, List.foldl_append]
      rfl
  · obtain ⟨hv, heff⟩ := effect_of_mem h he
    exact heff.callContract hv

/-- The set after the session. -/
theorem items_refine_set_session :
    sessionRun.2.items = [2, 1] ∧ {x | x ∈ sessionRun.2.items} = setOf compareInt session :=
  ⟨by decide +kernel, (items_refine_set run_session).2.1⟩

end Cs214.SortedList
