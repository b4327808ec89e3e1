import Cs214.Library.Store
import Mathlib.Order.Defs.Unbundled
import Mathlib.Data.List.Nodup

/-!
# Paths through linked cells

A store whose cells carry a link (`link : V → Option ℕ`, `none` being the null link) is a
forest of singly linked chains that may join. `Path s link p l q` says that following
links from `p` visits the addresses `l` and arrives at `q`; a chain is a path to `none`.

`Descends s link R` says that no link dangles and every link leads to a cell that is
smaller for `R`. For a strict order this is all that chain algorithms need: chains exist
from every address that holds a cell (`Descends.exists_chain`), never repeat an address,
and so are computed by `trail`, whose fuel is the number of cells. Dually, when every cell
is either a root or linked from another cell, every cell is reached from a root
(`Descends.exists_root`): there is no garbage.
-/

namespace Cs214

namespace Store

variable {V : Type*} {s t : Store V} {link : V → Option ℕ} {p q r : Option ℕ} {a b : ℕ} {v w : V}
  {l l₁ l₂ : List ℕ}

/-- Following links from `p` visits the cells at `l`, in this order, and arrives at `q`. -/
inductive Path (s : Store V) (link : V → Option ℕ) (q : Option ℕ) : Option ℕ → List ℕ → Prop
  | nil : Path s link q q []
  | cons {a : ℕ} {v : V} {l : List ℕ} (h : s.cell a = some v) (t : Path s link q (link v) l) :
      Path s link q (some a) (a :: l)

/-- The addresses visited from `p` within `n` links. -/
def follow (s : Store V) (link : V → Option ℕ) : ℕ → Option ℕ → List ℕ
  | 0, _ => []
  | _ + 1, none => []
  | n + 1, some a =>
    match s.cell a with
    | none => []
    | some v => a :: follow s link n (link v)

/-- The addresses visited from `p`; a chain without repetition has at most as many cells as
the store. -/
def trail (s : Store V) (link : V → Option ℕ) (p : Option ℕ) : List ℕ :=
  follow s link s.dom.card p

namespace Path

/-- A path of at least one cell starts at a cell. -/
theorem cons_iff : Path s link q p (a :: l) ↔
    p = some a ∧ ∃ v, s.cell a = some v ∧ Path s link q (link v) l := by
  constructor
  · rintro (_ | ⟨h, t⟩)
    exact ⟨rfl, _, h, t⟩
  · rintro ⟨rfl, v, h, t⟩
    exact .cons h t

theorem nil_iff : Path s link q p [] ↔ p = q :=
  ⟨fun h => by cases h; rfl, fun h => h ▸ .nil⟩

/-- Paths compose. -/
theorem append (h₁ : Path s link q p l₁) (h₂ : Path s link r q l₂) :
    Path s link r p (l₁ ++ l₂) := by
  induction h₁ with
  | nil => exact h₂
  | cons h _ ih => exact .cons h ih

/-- A path through `l₁ ++ l₂` passes between the two. -/
theorem split (h : Path s link r p (l₁ ++ l₂)) :
    ∃ q, Path s link q p l₁ ∧ Path s link r q l₂ := by
  induction l₁ generalizing p with
  | nil => exact ⟨p, .nil, h⟩
  | cons a l₁ ih =>
    obtain ⟨rfl, v, hv, ht⟩ := cons_iff.mp h
    obtain ⟨q, h₁, h₂⟩ := ih ht
    exact ⟨q, .cons hv h₁, h₂⟩

/-- A path is cut at a cell it visits. -/
theorem split_at (h : Path s link r p (l₁ ++ a :: l₂)) :
    Path s link (some a) p l₁ ∧ Path s link r (some a) (a :: l₂) := by
  obtain ⟨q, h₁, h₂⟩ := h.split
  obtain ⟨rfl, -⟩ := cons_iff.mp h₂
  exact ⟨h₁, h₂⟩

/-- The last cell of a path links to where the path arrives. -/
theorem exists_last (h : Path s link q p (l ++ [a])) :
    ∃ v, Path s link (some a) p l ∧ s.cell a = some v ∧ link v = q := by
  obtain ⟨hp, ha⟩ := h.split_at
  obtain ⟨-, v, hv, hlink⟩ := cons_iff.mp ha
  exact ⟨v, hp, hv, nil_iff.mp hlink⟩

/-- Every visited address holds a cell. -/
theorem exists_cell (h : Path s link q p l) (ha : a ∈ l) : ∃ v, s.cell a = some v := by
  induction h with
  | nil => cases ha
  | cons hv _ ih =>
    rcases List.mem_cons.mp ha with rfl | ha
    · exact ⟨_, hv⟩
    · exact ih ha

/-- A path only depends on the links of the cells it visits. -/
theorem congr (h : Path s link q p l)
    (hst : ∀ a ∈ l, ∀ v, s.cell a = some v → ∃ w, t.cell a = some w ∧ link w = link v) :
    Path t link q p l := by
  induction h with
  | nil => exact .nil
  | cons hv _ ih =>
    obtain ⟨w, hw, hlink⟩ := hst _ (by simp) _ hv
    refine .cons hw ?_
    rw [hlink]
    exact ih fun a ha => hst a (List.mem_cons_of_mem _ ha)

/-- The chain from an address is unique. -/
theorem unique (h₁ : Path s link none p l₁) (h₂ : Path s link none p l₂) : l₁ = l₂ := by
  induction h₁ generalizing l₂ with
  | nil =>
    cases l₂ with
    | nil => rfl
    | cons a l => obtain ⟨hp, -⟩ := cons_iff.mp h₂; cases hp
  | cons hv _ ih =>
    cases l₂ with
    | nil => cases nil_iff.mp h₂
    | cons a l =>
      obtain ⟨hp, w, hw, ht⟩ := cons_iff.mp h₂
      obtain rfl := Option.some.inj hp
      obtain rfl := Option.some.inj (hv.symm.trans hw)
      rw [ih ht]

/-- A chain goes on from where a path along it has arrived. -/
theorem exists_rest (h₁ : Path s link (some a) p l₁) (h₂ : Path s link none p l₂) :
    ∃ l, Path s link none (some a) l := by
  induction h₁ generalizing l₂ with
  | nil => exact ⟨l₂, h₂⟩
  | cons hv _ ih =>
    cases l₂ with
    | nil => cases nil_iff.mp h₂
    | cons b l₂ =>
      obtain ⟨hp, w, hw, ht⟩ := cons_iff.mp h₂
      obtain rfl := Option.some.inj hp
      obtain rfl := Option.some.inj (hv.symm.trans hw)
      exact ih ht

/-- **A chain that ends never visits an address twice**: it would go on from there forever. -/
theorem nodup (h : Path s link none p l) : l.Nodup := by
  induction h with
  | nil => exact .nil
  | @cons a v l hv ht ih =>
    refine List.nodup_cons.mpr ⟨fun ha => ?_, ih⟩
    obtain ⟨l₁, l₂, rfl⟩ := List.append_of_mem ha
    have hlen := congrArg List.length ((Path.cons hv ht).unique ht.split_at.2)
    simp only [List.length_cons, List.length_append] at hlen
    omega

/-- A chain whose addresses are distinct fits in the store. -/
theorem length_le_card (h : Path s link q p l) (hnd : l.Nodup) : l.length ≤ s.dom.card := by
  rw [← List.toFinset_card_of_nodup hnd]
  refine Finset.card_le_card fun a ha => ?_
  obtain ⟨v, hv⟩ := h.exists_cell (List.mem_toFinset.mp ha)
  exact mem_dom_of_cell hv

/-- With enough fuel `follow` computes the chain. -/
theorem follow_eq (h : Path s link none p l) : ∀ {n : ℕ}, l.length ≤ n → follow s link n p = l := by
  induction h with
  | nil => intro n _; cases n <;> rfl
  | cons hv _ ih =>
    rintro (_ | n) hn
    · simp at hn
    · simp only [List.length_cons] at hn
      simp only [follow, hv]
      rw [ih (by omega)]

end Path

/-- `trail` computes every chain that ends. -/
theorem Path.trail_eq (h : Path s link none p l) : s.trail link p = l :=
  h.follow_eq (h.length_le_card h.nodup)

/-! ### Descending links -/

/-- No link dangles, and every link leads to an `R`-smaller cell. -/
def Descends (s : Store V) (link : V → Option ℕ) (R : V → V → Prop) : Prop :=
  ∀ a v b, s.cell a = some v → link v = some b → ∃ w, s.cell b = some w ∧ R v w

namespace Descends

variable {R : V → V → Prop} [IsStrictOrder V R]

/-- Every cell visited after the first one is smaller than it. -/
theorem rel_of_path (hs : Descends s link R) (hv : s.cell a = some v)
    (h : Path s link q (link v) l) (hb : b ∈ l) (hw : s.cell b = some w) : R v w := by
  induction l generalizing a v with
  | nil => cases hb
  | cons c l ih =>
    obtain ⟨hc, u, hu, ht⟩ := Path.cons_iff.mp h
    obtain ⟨u', hu', hR⟩ := hs a v c hv hc
    obtain rfl := Option.some.inj (hu.symm.trans hu')
    rcases List.mem_cons.mp hb with rfl | hb
    · obtain rfl := Option.some.inj (hu.symm.trans hw)
      exact hR
    · exact trans_of R hR (ih hu ht hb)

/-- The cells visited by a path are pairwise descending, in the order of the visit. -/
theorem pairwise_of_path (hs : Descends s link R) (h : Path s link q p l) :
    l.Pairwise fun a b => ∀ v w, s.cell a = some v → s.cell b = some w → R v w := by
  induction h with
  | nil => exact .nil
  | cons hv ht ih =>
    refine List.pairwise_cons.mpr ⟨fun b hb v' w hv' hw => ?_, ih⟩
    obtain rfl := Option.some.inj (hv.symm.trans hv')
    exact hs.rel_of_path hv ht hb hw

/-- A path never visits an address twice. -/
theorem nodup_of_path (hs : Descends s link R) (h : Path s link q p l) : l.Nodup := by
  refine (hs.pairwise_of_path h).imp_of_mem fun {a b} ha _ hab => ?_
  rintro rfl
  obtain ⟨v, hv⟩ := h.exists_cell ha
  exact irrefl_of R v (hab v v hv hv)

/-- A link never leads back to an address the path has visited before it. -/
theorem notMem_of_path (hs : Descends s link R) (hv : s.cell a = some v)
    (h : Path s link q (link v) l) : a ∉ l := fun ha =>
  irrefl_of R v (hs.rel_of_path hv h ha hv)

omit [IsStrictOrder V R] in
/-- With no link dangling, a path that starts at a cell arrives at a cell. -/
theorem exists_cell_of_path (hs : Descends s link R) (h : Path s link (some b) p l)
    (hp : ∀ a, p = some a → ∃ v, s.cell a = some v) : ∃ w, s.cell b = some w := by
  induction h with
  | nil => exact hp b rfl
  | cons hv _ ih =>
    refine ih fun c hc => ?_
    obtain ⟨w, hw, -⟩ := hs _ _ c hv hc
    exact ⟨w, hw⟩

open Classical in
/-- **Chains exist**: from every cell, following links ends at `none`. -/
theorem exists_chain (hs : Descends s link R) (hv : s.cell a = some v) :
    ∃ l, Path s link none (some a) l := by
  -- the measure is the number of cells below the current one
  induction hn : s.count (fun w => decide (R v w)) using Nat.strong_induction_on
    generalizing a v with
  | _ n ih =>
    rcases hlink : link v with _ | b
    · exact ⟨[a], .cons hv (hlink ▸ .nil)⟩
    · obtain ⟨w, hw, hR⟩ := hs a v b hv hlink
      have hlt : s.count (fun u => decide (R w u)) < n := by
        rw [← hn]
        refine count_lt_count (fun c u _ hu => ?_) hw ?_ ?_
        · exact decide_eq_true (trans_of R hR (of_decide_eq_true hu))
        · exact decide_eq_false (irrefl_of R w)
        · exact decide_eq_true hR
      obtain ⟨l, hl⟩ := ih _ hlt hw rfl
      exact ⟨a :: l, .cons hv (hlink ▸ hl)⟩

/-- `trail` is the chain from any address that does not dangle. -/
theorem path_trail (hs : Descends s link R) (hp : ∀ a, p = some a → ∃ v, s.cell a = some v) :
    Path s link none p (s.trail link p) := by
  have hchain : ∃ l, Path s link none p l := by
    rcases p with _ | a
    · exact ⟨[], .nil⟩
    · obtain ⟨v, hv⟩ := hp a rfl
      exact hs.exists_chain hv
  obtain ⟨l, hl⟩ := hchain
  rw [trail, hl.follow_eq (hl.length_le_card (hs.nodup_of_path hl))]
  exact hl

/-- `trail` computes every chain. -/
theorem trail_eq (hs : Descends s link R) (h : Path s link none p l) : s.trail link p = l :=
  h.follow_eq (h.length_le_card (hs.nodup_of_path h))

open Classical in
/-- **No garbage**: when every cell is a root or linked from another cell, every cell is
reached from a root. -/
theorem exists_root (hs : Descends s link R) {root : ℕ → Prop}
    (hroot : ∀ a v, s.cell a = some v →
      root a ∨ ∃ b w, s.cell b = some w ∧ link w = some a)
    (hv : s.cell a = some v) : ∃ b l, root b ∧ Path s link (some a) (some b) l := by
  -- the measure is the number of cells above the current one
  induction hn : s.count (fun w => decide (R w v)) using Nat.strong_induction_on
    generalizing a v with
  | _ n ih =>
    rcases hroot a v hv with hr | ⟨b, w, hw, hlink⟩
    · exact ⟨a, [], hr, .nil⟩
    · obtain ⟨v', hv', hR⟩ := hs b w a hw hlink
      obtain rfl := Option.some.inj (hv.symm.trans hv')
      have hlt : s.count (fun u => decide (R u w)) < n := by
        rw [← hn]
        refine count_lt_count (fun c u _ hu => ?_) hw ?_ ?_
        · exact decide_eq_true (trans_of R (of_decide_eq_true hu) hR)
        · exact decide_eq_false (irrefl_of R w)
        · exact decide_eq_true hR
      obtain ⟨c, l, hc, hl⟩ := ih _ hlt hw rfl
      exact ⟨c, l ++ [b], hc, hl.append (.cons hw (hlink ▸ .nil))⟩

end Descends

end Store

end Cs214
