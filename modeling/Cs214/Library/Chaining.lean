import Mathlib.Data.List.Basic

/-!
# Tables with chaining

A table with chaining keeps its entries in lists, the chains, and puts a new entry behind those in
the chain of its key. `chains` are the chains that a list of entries makes. A key is looked for in
one chain only, and the first entry with this key is found there (`find?_chain`): of several
entries with one key the oldest counts.
-/

namespace Cs214

variable {E K : Type*} (key : E → K) (place : K → ℕ) {entries : List E} {e : E} {size : ℕ}

/-- The entries in the chain at a place. -/
def chain (entries : List E) (i : ℕ) : List E := entries.filter fun e => place (key e) == i

/-- **The chains** of some entries. -/
def chains (size : ℕ) (entries : List E) : List (List E) :=
  (List.range size).map (chain key place entries)

/-- **A key is found in its chain** if it is found at all. -/
theorem find?_chain [DecidableEq K] (entries : List E) (k : K) :
    (chain key place entries (place k)).find? (fun e => key e = k) =
      entries.find? fun e => key e = k := by
  rw [chain, List.find?_filter]
  congr 1
  funext e
  rw [decide_eq_decide, beq_iff_eq, decide_eq_true_eq]
  exact ⟨And.right, fun h => ⟨congrArg place h, h⟩⟩

theorem chains_nil : chains key place size [] = List.replicate size [] := by
  have hchain : chain key place [] = fun _ => [] := rfl
  rw [chains, hchain, List.map_const', List.length_range]

theorem getElem?_chains {i : ℕ} (hi : i < size) :
    (chains key place size entries)[i]? = some (chain key place entries i) := by
  rw [chains, List.getElem?_map, List.getElem?_range hi]
  rfl

/-- **A new entry** goes behind those in its chain. -/
theorem chains_append :
    chains key place size (entries ++ [e]) = (chains key place size entries).set (place (key e))
      (chain key place entries (place (key e)) ++ [e]) := by
  refine List.ext_getElem (by simp [chains]) fun i hi _ => ?_
  have hrange : i < size := by simpa [chains] using hi
  rw [List.getElem_set]
  simp only [chains, List.getElem_map, List.getElem_range, chain, List.filter_append,
    List.filter_singleton]
  split_ifs with heq
  · rw [heq, beq_self_eq_true]
    rfl
  · rw [beq_eq_false_iff_ne.mpr heq]
    exact List.append_nil _

end Cs214
