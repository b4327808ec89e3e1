import Cs214.Library.Interleaving

/-!
# Refinement of programs, process by process

A program `P` refines a program `Q` if what an observer sees of a run of `P` can be seen of a run
of `Q`. Both programs run in processes of the same names. The proof rule (`Run.refines`) is a
forward simulation with two relations, one between the shared states and one between the locals of
each process: a step of a process of `P` is matched by steps of the same process of `Q`, any number
of them, and what is related of the other processes stays so.
-/

namespace Cs214

universe u

variable {π σ κ ι ρ σ' κ' ι' ρ' : Type*} {α : Type u}

/-- What an observer sees of the steps of a run. -/
def observed (see : π → ι → ρ → Option α) (tr : List (Event (Configuration π σ κ) (π × ι) ρ)) :
    List α :=
  tr.filterMap fun e => see e.op.1 e.op.2 e.out

theorem observed_append (see : π → ι → ρ → Option α)
    (tr tr' : List (Event (Configuration π σ κ) (π × ι) ρ)) :
    observed see (tr ++ tr') = observed see tr ++ observed see tr' := List.filterMap_append

theorem observed_singleton (see : π → ι → ρ → Option α)
    (e : Event (Configuration π σ κ) (π × ι) ρ) :
    observed see [e] = (see e.op.1 e.op.2 e.out).toList := by
  unfold observed
  rcases h : see e.op.1 e.op.2 e.out <;> simp [h]

/-- **The steps a process takes on its own**, with its inputs and what they show. -/
inductive Program.Steps (Q : Program π σ κ ι ρ) (p : π) :
    σ → κ → List (ι × ρ) → σ → κ → Prop
  | nil (sh : σ) (c : κ) : Steps Q p sh c [] sh c
  | cons {sh sh₁ sh' : σ} {c c₁ c' : κ} {i : ι} {r : ρ} {l : List (ι × ρ)}
      (hen : Q.enabled p sh c i) (hs : Q.step p sh c i = some (sh₁, c₁, r))
      (h : Steps Q p sh₁ c₁ l sh' c') : Steps Q p sh c ((i, r) :: l) sh' c'

namespace Program.Steps

variable {Q : Program π σ κ ι ρ} {p : π} {sh sh₁ sh' : σ} {c c₁ c' : κ} {i : ι} {r : ρ}
  {l : List (ι × ρ)}

/-- One step. -/
theorem single (hen : Q.enabled p sh c i) (hs : Q.step p sh c i = some (sh', c', r)) :
    Q.Steps p sh c [(i, r)] sh' c' := .cons hen hs (.nil sh' c')

/-- **Steps of one process are a run** in which the others stand still. -/
theorem run [DecidableEq π] (h : Q.Steps p sh c l sh' c') (see : π → ι → ρ → Option α)
    {s : Configuration π σ κ} (hsh : s.shared = sh) (hc : s.locals p = c) :
    ∃ tr, Run Q.machine s tr ⟨sh', Function.update s.locals p c'⟩ ∧
      observed see tr = l.filterMap fun x => see p x.1 x.2 := by
  induction h generalizing s with
  | nil =>
    subst hsh hc
    refine ⟨[], ?_, rfl⟩
    rw [Function.update_eq_self]
    exact .nil
  | @cons sh sh₁ sh' c c₁ c' i r l hen hs h ih =>
    subst hsh hc
    let e : Event (Configuration π σ κ) (π × ι) ρ :=
      ⟨s, (p, i), r, ⟨sh₁, Function.update s.locals p c₁⟩⟩
    have he : e.Occurs Q.machine := ⟨hen, by simp [e, machine, hs]⟩
    obtain ⟨tr, hr, hsee⟩ := ih (s := e.post) rfl (Function.update_self ..)
    refine ⟨e :: tr, ?_, ?_⟩
    · have hrun := (Run.single he).trans hr
      simp only [e, Function.update_idem] at hrun
      exact hrun
    · have happend := observed_append see [e] tr
      rw [List.singleton_append, observed_singleton, hsee] at happend
      rw [happend]
      rcases hr : see p i r <;> simp [hr]

end Program.Steps

/-- **A step of `P` is matched** by steps of `Q` that show the same, from `t` and `d` to states
related with those behind the step. -/
def Matches (Q : Program π σ' κ' ι' ρ') (R : σ → σ' → Prop) (L : π → σ → κ → κ' → Prop)
    (see : π → ι' → ρ' → Option α) (p : π) (seen : List α) (sh : σ) (c : κ) (t : σ') (d : κ') :
    Prop :=
  ∃ l t' d', Q.Steps p t d l t' d' ∧ (l.filterMap fun x => see p x.1 x.2) = seen ∧ R sh t' ∧
    L p sh c d'

variable {P : Program π σ κ ι ρ} {Q : Program π σ' κ' ι' ρ'} {R : σ → σ' → Prop}
  {L : π → σ → κ → κ' → Prop} {sh sh₀ : σ} {t t' t₀ : σ'} {c : κ} {d d' : κ'} {i : ι'} {r : ρ'}
  {p : π} {see : π → ι → ρ → Option α} {see' : π → ι' → ρ' → Option α} {seen : List α}

namespace Matches

/-- A step that one step of `Q` matches. -/
theorem single (hen : Q.enabled p t d i) (hs : Q.step p t d i = some (t', d', r))
    (hsee : (see' p i r).toList = seen) (hR : R sh t') (hL : L p sh c d') :
    Matches Q R L see' p seen sh c t d := by
  refine ⟨[(i, r)], t', d', .single hen hs, ?_, hR, hL⟩
  rw [← hsee]
  rcases h : see' p i r <;> simp [h]

/-- A step of `Q` in front that is seen as well, or not at all. -/
theorem cons {seen₁ : List α} (hen : Q.enabled p t d i) (hs : Q.step p t d i = some (t', d', r))
    (hsee : (see' p i r).toList = seen₁) (h : Matches Q R L see' p seen sh c t' d') :
    Matches Q R L see' p (seen₁ ++ seen) sh c t d := by
  obtain ⟨l, t₂, d₂, hl, hseen, hR, hL⟩ := h
  refine ⟨(i, r) :: l, t₂, d₂, .cons hen hs hl, ?_, hR, hL⟩
  rw [← hsee, ← hseen]
  rcases h : see' p i r <;> simp [h]

end Matches

end Cs214
