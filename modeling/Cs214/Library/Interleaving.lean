import Cs214.Library.Run
import Mathlib.Logic.Function.Basic

/-!
# Processes that share a state

Any number of processes run one program over a shared state. A step of a process reads and
writes the shared state and its own locals; an interleaving is a run of the machine whose
operations name the process that takes the next step and what its environment gives it.

The proof rule is the one of rely and guarantee. Each process has an assertion about the shared
state and its locals; a step keeps the assertion of the process that takes it, changes the shared
state only as its guarantee allows, and the guarantee of one process disturbs the assertion of no
other. The assertions then hold of all processes in every reachable state (`Run.relyGuarantee`).
-/

namespace Cs214

/-- A program over shared states `σ` and locals `κ`; processes are named by `π`, the environment
gives `ι`, and a step shows `ρ`. -/
structure Program (π σ κ ι ρ : Type*) where
  /-- The locals a process starts with. -/
  init : κ
  /-- The steps a process can take now. -/
  enabled : π → σ → κ → ι → Prop
  /-- What a step does, none being a fault. -/
  step : π → σ → κ → ι → Option (σ × κ × ρ)

/-- The shared state with the locals of every process. -/
@[ext] structure Configuration (π σ κ : Type*) where
  shared : σ
  locals : π → κ

variable {π σ κ ι ρ : Type*} [DecidableEq π]

namespace Program

/-- **The interleavings** of a program. -/
def machine (P : Program π σ κ ι ρ) : Machine (Configuration π σ κ) (π × ι) ρ where
  legal s o := P.enabled o.1 s.shared (s.locals o.1) o.2
  step s o := (P.step o.1 s.shared (s.locals o.1) o.2).map fun r =>
    (⟨r.1, Function.update s.locals o.1 r.2.1⟩, r.2.2)

instance (P : Program π σ κ ι ρ) [∀ p sh c i, Decidable (P.enabled p sh c i)]
    (s : Configuration π σ κ) (o : π × ι) : Decidable (P.machine.legal s o) :=
  inferInstanceAs (Decidable (P.enabled o.1 s.shared (s.locals o.1) o.2))

/-- Every process at its start. -/
def start (P : Program π σ κ ι ρ) (sh : σ) : Configuration π σ κ := ⟨sh, fun _ => P.init⟩

end Program

variable {P : Program π σ κ ι ρ} {sh₀ : σ} {s : Configuration π σ κ}
  {e : Event (Configuration π σ κ) (π × ι) ρ} {tr : List (Event (Configuration π σ κ) (π × ι) ρ)}

/-- A step of an interleaving is a step of one process. -/
theorem Event.Occurs.localStep (he : e.Occurs P.machine) :
    P.step e.op.1 e.pre.shared (e.pre.locals e.op.1) e.op.2 =
      some (e.post.shared, e.post.locals e.op.1, e.out) := by
  obtain ⟨⟨sh', c', r⟩, hr, heq⟩ := Option.map_eq_some_iff.mp he.step
  obtain ⟨hpost, hout⟩ := Prod.mk.inj heq
  rw [hr, ← hpost, ← hout]
  simp only [Function.update_self]

/-- The locals of the other processes stay. -/
theorem Event.Occurs.locals_of_ne (he : e.Occurs P.machine) {q : π} (hq : q ≠ e.op.1) :
    e.post.locals q = e.pre.locals q := by
  obtain ⟨r, -, heq⟩ := Option.map_eq_some_iff.mp he.step
  rw [← (Prod.mk.inj heq).1]
  exact Function.update_of_ne hq _ _

/-- **The rule of rely and guarantee.** `G` is an invariant of the shared state, `A` the
assertion of each process, and `R` what the steps of a process may do to the shared state. -/
theorem Run.relyGuarantee {G : σ → Prop} {A : π → σ → κ → Prop} {R : π → σ → σ → Prop}
    (hr : Run P.machine (P.start sh₀) tr s) (hG : G sh₀) (hA : ∀ p, A p sh₀ P.init)
    (hstep : ∀ {p sh c i sh' c' r}, G sh → A p sh c → P.enabled p sh c i →
      P.step p sh c i = some (sh', c', r) → G sh' ∧ A p sh' c' ∧ R p sh sh')
    (hstable : ∀ {p q sh sh' c}, q ≠ p → G sh → A q sh c → R p sh sh' → A q sh' c) :
    G s.shared ∧ ∀ p, A p s.shared (s.locals p) := by
  refine hr.invariant (I := fun s => G s.shared ∧ ∀ p, A p s.shared (s.locals p)) ⟨hG, hA⟩ ?_
  rintro e ⟨hG, hA⟩ he
  obtain ⟨hG', hA', hR⟩ := hstep hG (hA e.op.1) he.legal he.localStep
  refine ⟨hG', fun q => ?_⟩
  by_cases hq : q = e.op.1
  · rw [hq]
    exact hA'
  · rw [he.locals_of_ne hq]
    exact hstable hq hG (hA q) hR

end Cs214
