import Cs214.Library.Run

/-!
# Abstractions of machines

`Abstracts m m' I f see` says that in the states of `m` that meet the invariant `I` the machine `m'`
does on `f s` what `m` does on `s`: the same calls are legal, each of them is answered by both, and
the answers are the same as far as `see` shows. Then nobody who sees the answers can tell the two
machines apart (`Abstracts.dialogue_iff`): the runs of `m` show exactly the dialogues of `m'`, and
end in the states that stand for those of `m'`.
-/

namespace Cs214

universe u v w x y

variable {σ : Type u} {τ : Type v} {ω : Type w} {ρ : Type x} {α : Type y} {m : Machine σ ω ρ}
  {m' : Machine τ ω α} {I : σ → Prop} {f : σ → τ} {see : ρ → α} {s₀ s : σ} {t : τ}
  {tr : List (Event σ ω ρ)}

/-- The calls of a run with what is seen of the answers. -/
def Event.dialogue (see : ρ → α) (tr : List (Event σ ω ρ)) : List (ω × α) :=
  tr.map fun e => (e.op, see e.out)

/-- **Abstraction**, for a machine that answers every legal call. -/
structure Abstracts (m : Machine σ ω ρ) (m' : Machine τ ω α) (I : σ → Prop) (f : σ → τ)
    (see : ρ → α) : Prop where
  legal : ∀ {s o}, I s → (m.legal s o ↔ m'.legal (f s) o)
  step : ∀ {s o}, I s → m.legal s o → ∃ s' r, m.step s o = some (s', r) ∧ I s' ∧
    m'.step (f s) o = some (f s', see r)

namespace Abstracts

/-- **A run of the machine** is one of its abstraction. -/
theorem run (h : Abstracts m m' I f see) (h₀ : I s₀) (hr : Run m s₀ tr s) :
    I s ∧ ∃ tr', Run m' (f s₀) tr' (f s) ∧ Event.dialogue id tr' = Event.dialogue see tr := by
  induction hr with
  | nil => exact ⟨h₀, [], .nil, rfl⟩
  | @snoc tr e hr he ih =>
    obtain ⟨hI, tr', hr', htr⟩ := ih
    obtain ⟨s', r, hstep, hI', habs⟩ := h.step hI he.legal
    obtain ⟨rfl, rfl⟩ := Prod.mk.inj (Option.some.inj (he.step.symm.trans hstep))
    let e' : Event τ ω α := ⟨f e.pre, e.op, see e.out, f e.post⟩
    have he' : e'.Occurs m' := ⟨(h.legal hI).mp he.legal, habs⟩
    refine ⟨hI', tr' ++ [e'], hr'.snoc he', ?_⟩
    rw [Event.dialogue, List.map_append, ← Event.dialogue, htr, Event.dialogue, Event.dialogue,
      List.map_append]
    rfl

/-- **A run of the abstraction** is one of the machine. -/
theorem exists_run (h : Abstracts m m' I f see) (h₀ : I s₀) {tr' : List (Event τ ω α)}
    (hr : Run m' (f s₀) tr' t) : ∃ tr s, Run m s₀ tr s ∧ f s = t ∧ I s ∧
      Event.dialogue see tr = Event.dialogue id tr' := by
  induction hr with
  | nil => exact ⟨[], s₀, .nil, rfl, h₀, rfl⟩
  | @snoc tr' e' hr' he' ih =>
    obtain ⟨tr, s, hr, hs, hI, htr⟩ := ih
    have hlegal : m.legal s e'.op := (h.legal hI).mpr (hs ▸ he'.legal)
    obtain ⟨s', r, hstep, hI', habs⟩ := h.step hI hlegal
    rw [hs] at habs
    obtain ⟨hpost, hout⟩ := Prod.mk.inj (Option.some.inj (he'.step.symm.trans habs))
    let e : Event σ ω ρ := ⟨s, e'.op, r, s'⟩
    have he : e.Occurs m := ⟨hlegal, hstep⟩
    refine ⟨tr ++ [e], s', hr.snoc he, hpost.symm, hI', ?_⟩
    rw [Event.dialogue, List.map_append, ← Event.dialogue, htr, Event.dialogue, Event.dialogue,
      List.map_append, List.map_singleton, List.map_singleton, hout]
    rfl

/-- **A machine and its abstraction cannot be told apart.** -/
theorem dialogue_iff (h : Abstracts m m' I f see) (h₀ : I s₀) (t : τ) (l : List (ω × α)) :
    (∃ tr s, Run m s₀ tr s ∧ f s = t ∧ Event.dialogue see tr = l) ↔
      ∃ tr, Run m' (f s₀) tr t ∧ Event.dialogue id tr = l := by
  constructor
  · rintro ⟨tr, s, hr, rfl, rfl⟩
    exact (h.run h₀ hr).2
  · rintro ⟨tr', hr', rfl⟩
    obtain ⟨tr, s, hr, hs, -, htr⟩ := h.exists_run h₀ hr'
    exact ⟨tr, s, hr, hs, htr⟩

end Abstracts

end Cs214
