import Mathlib.Data.List.Basic
import Mathlib.Logic.Basic

/-!
# Runs of machines with partial steps

A `Machine` answers the operations its clients call: `legal` is what a caller owes the
machine before a call, and `step` is the partial function the code computes, `none` being
a fault (a read of memory that is not allocated) or a loop that ran out of its bound.

A `Run` records every call as an `Event` that keeps the state before the call, the
operation, its answer and the state after it, so that a property of a run can speak about
the moment of each call. The two rules every invariant proof uses are `Run.invariant`
(states only) and `Run.invariant_trace` (the state together with the history that led to
it).
-/

namespace Cs214

/-- A machine over states `σ`: operations `ω`, answers `ρ`. -/
structure Machine (σ ω ρ : Type*) where
  legal : σ → ω → Prop
  step : σ → ω → Option (σ × ρ)

/-- One call in a run, with the states around it. -/
structure Event (σ ω ρ : Type*) where
  pre : σ
  op : ω
  out : ρ
  post : σ

variable {σ ω ρ : Type*} {m : Machine σ ω ρ} {s₀ s s' : σ} {tr : List (Event σ ω ρ)}

/-- An event the machine can produce: a legal call that was answered. -/
structure Event.Occurs (m : Machine σ ω ρ) (e : Event σ ω ρ) : Prop where
  legal : m.legal e.pre e.op
  step : m.step e.pre e.op = some (e.post, e.out)

/-- `Run m s₀ tr s`: the calls of `tr`, oldest first, lead from `s₀` to `s`. -/
inductive Run (m : Machine σ ω ρ) (s₀ : σ) : List (Event σ ω ρ) → σ → Prop
  | nil : Run m s₀ [] s₀
  | snoc {tr : List (Event σ ω ρ)} {e : Event σ ω ρ} (h : Run m s₀ tr e.pre)
      (he : e.Occurs m) : Run m s₀ (tr ++ [e]) e.post

namespace Run

/-- **The invariant rule.** What holds initially and is kept by every legal step holds in
every reachable state. -/
theorem invariant {I : σ → Prop} (h : Run m s₀ tr s) (h₀ : I s₀)
    (hstep : ∀ e : Event σ ω ρ, I e.pre → e.Occurs m → I e.post) : I s := by
  induction h with
  | nil => exact h₀
  | snoc _ he ih => exact hstep _ ih he

/-- The invariant rule for a state together with the history that led to it. -/
theorem invariant_trace {I : List (Event σ ω ρ) → σ → Prop} (h : Run m s₀ tr s)
    (h₀ : I [] s₀)
    (hstep : ∀ tr (e : Event σ ω ρ), Run m s₀ tr e.pre → I tr e.pre → e.Occurs m →
      I (tr ++ [e]) e.post) : I tr s := by
  induction h with
  | nil => exact h₀
  | snoc h he ih => exact hstep _ _ h ih he

/-- Runs compose. -/
theorem trans {tr' : List (Event σ ω ρ)} (h : Run m s₀ tr s) (h' : Run m s tr' s') :
    Run m s₀ (tr ++ tr') s' := by
  induction h' with
  | nil => simpa using h
  | snoc _ he ih =>
    rw [← List.append_assoc]
    exact ih.snoc he

/-- A run of a machine is a run of any machine with the same calls. -/
theorem mono {m' : Machine σ ω ρ} (h : Run m s₀ tr s)
    (hm : ∀ e : Event σ ω ρ, e.Occurs m → e.Occurs m') : Run m' s₀ tr s := by
  induction h with
  | nil => exact .nil
  | snoc _ he ih => exact ih.snoc (hm _ he)

/-- A single call is a run. -/
theorem single {e : Event σ ω ρ} (he : e.Occurs m) : Run m e.pre [e] e.post := by
  have hnil : Run m e.pre [] e.pre := .nil
  exact hnil.snoc he

/-- Every event of a run was a legal call made in the state the calls before it led to. -/
theorem split_of_mem (h : Run m s₀ tr s) {e : Event σ ω ρ} (he : e ∈ tr) :
    ∃ tr₁ tr₂, tr = tr₁ ++ e :: tr₂ ∧ Run m s₀ tr₁ e.pre ∧ e.Occurs m ∧
      Run m e.post tr₂ s := by
  induction h with
  | nil => cases he
  | @snoc tr f h hf ih =>
    rcases List.mem_append.mp he with he | he
    · obtain ⟨tr₁, tr₂, rfl, h₁, hocc, h₂⟩ := ih he
      exact ⟨tr₁, tr₂ ++ [f], by simp, h₁, hocc, h₂.snoc hf⟩
    · obtain rfl := List.mem_singleton.mp he
      exact ⟨tr, [], rfl, h, hf, .nil⟩

/-- Every event of a run is legal and answered, and its starting state is reachable. -/
theorem occurs_of_mem (h : Run m s₀ tr s) {e : Event σ ω ρ} (he : e ∈ tr) :
    (∃ tr₁, Run m s₀ tr₁ e.pre) ∧ e.Occurs m := by
  obtain ⟨tr₁, -, -, h₁, hocc, -⟩ := h.split_of_mem he
  exact ⟨⟨tr₁, h₁⟩, hocc⟩

/-- The events of a run, at any place of it. -/
theorem split {tr₁ tr₂ : List (Event σ ω ρ)} {e : Event σ ω ρ}
    (h : Run m s₀ (tr₁ ++ e :: tr₂) s) : Run m s₀ tr₁ e.pre ∧ e.Occurs m ∧ Run m e.post tr₂ s := by
  generalize htr : tr₁ ++ e :: tr₂ = tr at h
  induction h generalizing tr₂ with
  | nil => simp at htr
  | @snoc tr f h hf ih =>
    rcases List.eq_nil_or_concat tr₂ with rfl | ⟨tr₃, g, rfl⟩
    · obtain ⟨rfl, hlast⟩ := List.append_inj' htr rfl
      obtain rfl := (List.cons.inj hlast).1
      exact ⟨h, hf, .nil⟩
    · rw [List.concat_eq_append, ← List.cons_append, ← List.append_assoc] at htr
      obtain ⟨hinit, hlast⟩ := List.append_inj' htr rfl
      obtain rfl := (List.cons.inj hlast).1
      obtain ⟨h₁, he, h₂⟩ := ih hinit
      rw [List.concat_eq_append]
      exact ⟨h₁, he, h₂.snoc hf⟩

/-- **What holds since an event**: it is so after the event, and every later step keeps it. -/
theorem since {I : σ → Prop} {tr₁ tr₂ : List (Event σ ω ρ)} {e : Event σ ω ρ}
    (h : Run m s₀ (tr₁ ++ e :: tr₂) s) (he : I e.post)
    (hstep : ∀ f ∈ tr₂, (∃ tr, Run m s₀ tr f.pre) → I f.pre → f.Occurs m → I f.post) : I s := by
  obtain ⟨h₁, hocc, h₂⟩ := h.split
  have hreach {tr₃ : List (Event σ ω ρ)} {t : σ} (h₃ : Run m e.post tr₃ t) :
      Run m s₀ (tr₁ ++ [e] ++ tr₃) t := (h₁.snoc hocc).trans h₃
  clear h
  induction h₂ with
  | nil => exact he
  | @snoc tr₃ f h₃ hf ih =>
    exact hstep f (by simp) ⟨_, hreach h₃⟩ (ih fun g hg => hstep g (by simp [hg])) hf

end Run

namespace Machine

/-- Run a list of operations, stopping at an illegal call or a fault. -/
def exec (m : Machine σ ω ρ) [∀ s o, Decidable (m.legal s o)] :
    σ → List ω → Option (List (Event σ ω ρ) × σ)
  | s, [] => some ([], s)
  | s, o :: os =>
    if m.legal s o then
      match m.step s o with
      | none => none
      | some (s', r) =>
        match exec m s' os with
        | none => none
        | some (tr, t) => some (⟨s, o, r, s'⟩ :: tr, t)
    else none

/-- One more call in front. -/
theorem exec_cons [∀ s o, Decidable (m.legal s o)] {o : ω} {os : List ω} {r : ρ} {t : σ}
    (hl : m.legal s o) (hs : m.step s o = some (s', r)) (h : m.exec s' os = some (tr, t)) :
    m.exec s (o :: os) = some (⟨s, o, r, s'⟩ :: tr, t) := by
  simp only [exec, if_pos hl, hs, h]

/-- What `exec` computes is a run. -/
theorem run_of_exec [∀ s o, Decidable (m.legal s o)] {os : List ω} {s t : σ}
    {tr : List (Event σ ω ρ)} (h : m.exec s os = some (tr, t)) : Run m s tr t := by
  induction os generalizing s tr with
  | nil =>
    simp only [exec, Option.some.injEq, Prod.mk.injEq] at h
    obtain ⟨rfl, rfl⟩ := h
    exact .nil
  | cons o os ih =>
    simp only [exec] at h
    split at h
    · rename_i hl
      rcases hs : m.step s o with _ | ⟨s', r⟩
      · simp [hs] at h
      · rcases hr : m.exec s' os with _ | ⟨tr', t'⟩
        · simp [hs, hr] at h
        · simp only [hs, hr, Option.some.injEq, Prod.mk.injEq] at h
          obtain ⟨rfl, rfl⟩ := h
          exact (Run.single (e := ⟨s, o, r, s'⟩) ⟨hl, hs⟩).trans (ih hr)
    · cases h

/-- The event of a legal call that is answered. -/
def event (m : Machine σ ω ρ) (s : σ) (o : ω) (h : (m.step s o).isSome) : Event σ ω ρ :=
  ⟨s, o, ((m.step s o).get h).2, ((m.step s o).get h).1⟩

theorem event_occurs {o : ω} (hl : m.legal s o) (h : (m.step s o).isSome) :
    (m.event s o h).Occurs m :=
  ⟨hl, (Option.some_get h).symm⟩

/-- One more call at the end of a run. -/
theorem run_event {t : σ} {tr : List (Event σ ω ρ)} {o : ω} (hr : Run m s tr t)
    (hl : m.legal t o) (h : (m.step t o).isSome) :
    Run m s (tr ++ [m.event t o h]) (m.event t o h).post :=
  hr.snoc (event_occurs hl h)

/-- The run of a list of operations that `exec` gets through. -/
theorem run_get [∀ s o, Decidable (m.legal s o)] {s : σ} {os : List ω}
    (h : (m.exec s os).isSome) :
    Run m s ((m.exec s os).get h).1 ((m.exec s os).get h).2 :=
  run_of_exec (Option.some_get h).symm

end Machine

end Cs214
