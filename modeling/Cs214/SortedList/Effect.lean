import Cs214.SortedList.Iterate

/-!
# What a call does

`Effect c w op out w'` collects the specifications of the functions: for every call it says
what it answers and how the world changes. In a valid world every legal call is answered and
has its effect (`exists_effect`), so the effect of any step of a run is known
(`Effect.of_occurs`), and every reachable world is valid (`valid_of_run`). The results about
runs are proved by cases on the effect; none of them looks into a function again.
-/

namespace Cs214.SortedList

variable {α : Type} {c : Comparator α} {w w' : World α} {op : Op α} {out : Answer α}
  {a i : ℕ} {tr : List (Event (World α) (Op α) (Answer α))}

/-- An event of a run on a list. -/
abbrev ListEvent (α : Type) := Event (World α) (Op α) (Answer α)

/-- **The effect of each call** on a valid world. -/
inductive Effect (c : Comparator α) (w : World α) : Op α → Answer α → World α → Prop
  | insertEqual {x y : α} {addr : ℕ} (hy : y ∈ w.items) (he : c.compare y x = 0) :
      Effect c w (.insert x addr) (.int 0) w
  | insert {x : α} {addr : ℕ} {w' : World α} {l₁ l₂ : List ℕ}
      (h : Inserts c w x addr w' l₁ l₂)
      (h₁ : ∀ b ∈ l₁, ∀ m, w.nodes.cell b = some m → c.gt m.data x)
      (h₂ : ∀ b ∈ l₂, ∀ m, w.nodes.cell b = some m → c.gt x m.data) :
      Effect c w (.insert x addr) (.int 1) w'
  | removeMissing {x : α} (h : ∀ y ∈ w.items, c.compare y x ≠ 0) :
      Effect c w (.remove x) (.int 0) w
  | remove {x : α} {w' : World α} {l₁ l₂ freed : List ℕ} {r : ℕ}
      (h : Removes c w x w' l₁ r l₂ freed) : Effect c w (.remove x) (.int 1) w'
  | destroy {w₁ : World α} (h : Relation.ReflTransGen (RemovesSome c) w w₁)
      (hv : Valid c w₁) (hnil : w₁.linked = []) (hv' : Valid c { w₁ with list := none }) :
      Effect c w .destroy .void { w₁ with list := none }
  | createIterator {i : ℕ} {w' : World α} (hi : i ∉ w.iterators.dom)
      (h : Settles c w w' [])
      (hiter : w'.iterators = w.iterators.insert i ⟨w.first, .func⟩) :
      Effect c w (.createIterator i) (.iter i) w'
  | nextItemEnd {i : ℕ} {it : SortedListIterator} (hi : w.iterators.cell i = some it)
      (hcur : it.current = none) : Effect c w (.nextItem i) (.item none) w
  | nextItem {i a : ℕ} {it : SortedListIterator} {node : Node α} {w' : World α}
      {q : Option ℕ} {freed : List ℕ} (hi : w.iterators.cell i = some it)
      (hcur : it.current = some a) (ha : w.nodes.cell a = some node)
      (h : Settles c w w' freed)
      (hiter : w'.iterators = w.iterators.insert i { it with current := q })
      (hadv : Advances w a node q freed) :
      Effect c w (.nextItem i) (.item (q.bind w.item)) w'
  | getItem {i : ℕ} {it : SortedListIterator} (hi : w.iterators.cell i = some it) :
      Effect c w (.getItem i) (.item (it.current.bind w.item)) w
  | destroyIterator {i : ℕ} {it : SortedListIterator} {w' : World α} {freed : List ℕ}
      (hi : w.iterators.cell i = some it) (h : Settles c w w' freed)
      (hiter : w'.iterators = w.iterators.erase i) :
      Effect c w (.destroyIterator i) .void w'

/-- An open iterator. -/
theorem exists_iterator (hi : i ∈ w.iterators.dom) : ∃ it, w.iterators.cell i = some it :=
  Option.isSome_iff_exists.mp ((w.iterators.mem_dom i).mp hi)

/-- **Every legal call is answered**, with its effect. -/
theorem exists_effect (hv : Valid c w) (hl : legal w op) :
    ∃ w' out, step w op = some (w', out) ∧ Effect c w op out w' := by
  cases op with
  | insert x addr =>
    rcases slInsertWith_spec (passes_eq_one c) hv hl.1 hl.2 x with
      ⟨hrun, y, hy, he⟩ | ⟨w', l₁, l₂, hrun, hins, h₁, h₂⟩
    · exact ⟨w, .int 0, by simp [step, slInsert, hrun], .insertEqual hy he⟩
    · exact ⟨w', .int 1, by simp [step, slInsert, hrun], .insert hins h₁ h₂⟩
  | remove x =>
    rcases slRemove_spec hv hl x with ⟨hrun, hne⟩ | ⟨w', l₁, r, l₂, freed, hrun, hrem⟩
    · exact ⟨w, .int 0, by simp [step, hrun], .removeMissing hne⟩
    · exact ⟨w', .int 1, by simp [step, hrun], .remove hrem⟩
  | destroy =>
    obtain ⟨w₁, hrun, hchain, hv₁, hnil, hv'⟩ := slDestroy_spec hv hl
    exact ⟨_, .void, by simp [step, hrun], .destroy hchain hv₁ hnil hv'⟩
  | createIterator addr =>
    obtain ⟨w', hrun, hset, hiter⟩ := slCreateIterator_spec hv hl.1 hl.2
    exact ⟨w', .iter addr, by simp [step, hrun], .createIterator hl.2 hset hiter⟩
  | nextItem i =>
    obtain ⟨it, hi⟩ := exists_iterator hl
    rcases hcur : it.current with _ | a
    · exact ⟨w, .item none, by simp [step, slNextItem_of_none hi hcur], .nextItemEnd hi hcur⟩
    · obtain ⟨node, ha⟩ := hv.exists_current hi hcur
      obtain ⟨w', q, freed, hrun, hset, hiter, hadv⟩ := slNextItem_spec hv hi hcur ha
      exact ⟨w', .item (q.bind w.item), by simp [step, hrun],
        .nextItem hi hcur ha hset hiter hadv⟩
  | getItem i =>
    obtain ⟨it, hi⟩ := exists_iterator hl
    exact ⟨w, .item (it.current.bind w.item), by simp [step, slGetItem_spec hv hi], .getItem hi⟩
  | destroyIterator i =>
    obtain ⟨it, hi⟩ := exists_iterator hl
    obtain ⟨w', freed, hrun, hset, hiter⟩ := slDestroyIterator_spec hv hi
    exact ⟨w', .void, by simp [step, hrun], .destroyIterator hi hset hiter⟩

/-- The effect of an event. -/
theorem Effect.of_occurs {e : ListEvent α} (he : e.Occurs (machine α)) (hv : Valid c e.pre) :
    Effect c e.pre e.op e.out e.post := by
  obtain ⟨w', out, hrun, heff⟩ := exists_effect hv he.legal
  have := hrun.symm.trans he.step
  rw [Option.some.injEq, Prod.mk.injEq] at this
  obtain ⟨rfl, rfl⟩ := this
  exact heff

/-- Every call keeps the invariant. -/
theorem Effect.valid (h : Effect c w op out w') (hv : Valid c w) : Valid c w' := by
  cases h with
  | insertEqual | removeMissing | nextItemEnd | getItem => exact hv
  | insert h => exact h.valid
  | remove h => exact h.valid
  | destroy _ _ _ hv' => exact hv'
  | createIterator _ h => exact h.valid
  | nextItem _ _ _ h => exact h.valid
  | destroyIterator _ h => exact h.valid

/-- **Every reachable world is valid.** -/
theorem valid_of_run (h : Run (machine α) (start c) tr w) : Valid c w :=
  h.invariant (valid_start c) fun _ hv he => (Effect.of_occurs he hv).valid hv

/-- The events of a run have their effects. -/
theorem effect_of_mem (h : Run (machine α) (start c) tr w) {e : ListEvent α} (he : e ∈ tr) :
    Valid c e.pre ∧ Effect c e.pre e.op e.out e.post := by
  obtain ⟨⟨tr₁, h₁⟩, hocc⟩ := h.occurs_of_mem he
  exact ⟨valid_of_run h₁, .of_occurs hocc (valid_of_run h₁)⟩

/-- **Progress.** In every reachable world every legal call is answered: no call reads a freed
node or iterator, and no loop fails to end. -/
theorem step_isSome_of_run (h : Run (machine α) (start c) tr w) (hl : legal w op) :
    (step w op).isSome := by
  obtain ⟨w', out, hrun, -⟩ := exists_effect (valid_of_run h) hl
  simp [hrun]

/-! ### Removals in sequence -/

/-- What every removal keeps is kept by the destruction of the list. -/
private theorem removals_induct {P : World α → Prop} {w₁ : World α} (hv : Valid c w)
    (h : Relation.ReflTransGen (RemovesSome c) w w₁) (h₀ : P w)
    (hstep : ∀ u v x l₁ r l₂ freed, Valid c u → Removes c u x v l₁ r l₂ freed → P u → P v) :
    P w₁ := by
  have hboth : Valid c w₁ ∧ P w₁ := by
    induction h with
    | refl => exact ⟨hv, h₀⟩
    | tail _ hr ih =>
      obtain ⟨x, l₁, r, l₂, freed, hrem⟩ := hr
      exact ⟨hrem.valid, hstep _ _ x l₁ r l₂ freed ih.1 hrem ih.2⟩
  exact hboth.2

/-- A chain of removals frees the nodes of all of them. -/
theorem exists_frees_of_removals (hv : Valid c w)
    (h : Relation.ReflTransGen (RemovesSome c) w w') : ∃ freed, Frees w w' freed := by
  refine removals_induct (P := fun v => ∃ freed, Frees w v freed) hv h
    ⟨[], .of_item_eq (fun _ => rfl) rfl⟩ fun u v y k₁ r k₂ freed _ hrem => ?_
  rintro ⟨freed', hF⟩
  exact ⟨freed' ++ freed, hF.trans hrem.frees⟩

/-- No removal touches an iterator. -/
theorem iterators_of_removals (hv : Valid c w)
    (h : Relation.ReflTransGen (RemovesSome c) w w') : w'.iterators = w.iterators :=
  removals_induct (P := fun v => v.iterators = w.iterators) hv h rfl
    fun _ _ _ _ _ _ _ _ hrem hu => hrem.iterators.trans hu

/-! ### A session -/

/-- A session on a list of integers: `3` is removed under an iterator that rests on it. -/
def session : List (Op ℤ) :=
  [.insert 1 0, .insert 3 1, .createIterator 0, .insert 2 2, .remove 3]

private theorem exec_session : ((machine ℤ).exec (start compareInt) session).isSome := by
  decide +kernel

/-- The trace of the session and the world it leads to. -/
def sessionRun : List (ListEvent ℤ) × World ℤ :=
  ((machine ℤ).exec (start compareInt) session).get exec_session

theorem run_session : Run (machine ℤ) (start compareInt) sessionRun.1 sessionRun.2 :=
  Machine.run_get exec_session

end Cs214.SortedList
