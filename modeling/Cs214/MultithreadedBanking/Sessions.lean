import Cs214.MultithreadedBanking.Ledger

/-!
# Sessions

A session is recorded in three places: the mutex of the account, its flag `in_session`, and the
pointer `client_account` of the process. `sessions_held` says how far they agree in every
reachable state. A process that exits has closed its session, unless `select` failed under it
(`released_iff`): this is the one way out of the loop of `client()` without a call of
`set_not_in_session`.
-/

namespace Cs214.MultithreadedBanking

set_option linter.unusedSectionVars false

variable {F : Type} [Arithmetic F] {p q a : ℕ} {sh sh' : ServerSession F} {c c' : Client F}
  {i : Input} {out : Output} {sendable : Request → Prop} {tr : List (Step F)}
  {s : Configuration ℕ (ServerSession F) (Client F)}

/-! ### The holder of a session -/

/-- The points of `CREDIT`, `DEBIT` and `BALANCE`. -/
def Pc.transacts : Pc F → Bool
  | .clientDebit _ | .clientCredit _ | .balance _ => true
  | _ => false

/-- The points at which a process tries to get a session. -/
def Pc.waits : Pc F → Bool
  | .clientStart (.trylock _) | .clientStart (.wait _) => true
  | _ => false

/-- A process is the holder of the session of an account. -/
structure HoldsSession (p : ℕ) (sh : ServerSession F) (a : ℕ) : Prop where
  mutex : (sh.accounts a).accountSessionMutex = some p
  session : (sh.accounts a).inSession = .inSession

private theorem Assertion.holder (hA : Assertion p sh c) (ha : c.clientAccount = some a)
    (hin : c.pc.inside = true) : HoldsSession p sh a :=
  ⟨(hA.mutex a).mpr ha, (hA.session a ha).mpr hin⟩

/-- A transaction works on the account of a session. -/
private theorem Assertion.transacts (hA : Assertion p sh c) (h : c.pc.transacts = true) :
    ∃ a, c.clientAccount = some a ∧ HoldsSession p sh a := by
  have hholds := hA.holds
  have hin : c.pc.inside = true ∧ ∃ a, c.clientAccount = some a := by
    generalize c.pc = pc at h hholds ⊢
    cases pc with
    | clientDebit l | clientCredit l =>
      obtain ⟨-, a, ha, -⟩ := hholds
      exact ⟨rfl, a, ha⟩
    | balance l => exact ⟨rfl, hholds.2⟩
    | _ => cases h
  obtain ⟨hin, a, ha⟩ := hin
  exact ⟨a, ha, hA.holder ha hin⟩

/-- A process that waits for a session has none. -/
private theorem Assertion.waits (hA : Assertion p sh c) (h : c.pc.waits = true) (a : ℕ) :
    (sh.accounts a).accountSessionMutex ≠ some p := by
  have hholds := hA.holds
  refine hA.mutex_ne ?_ a
  generalize c.pc = pc at h hholds
  cases pc with
  | clientStart l =>
    cases l with
    | trylock | wait => exact hholds.2.1
    | _ => cases h
  | _ => cases h

/-- **Sessions are held.** In every reachable state a process at the top of its loop holds the
session of its account, which no other process at that point has; only the holder of a session is
at a point of a transaction; a process that waits for a session holds none; and an account is in
session only while somebody holds its mutex. -/
theorem sessions_held (hr : Run (program sendable).machine (start sendable) tr s) :
    (∀ p a, (s.locals p).pc = .select → (s.locals p).clientAccount = some a →
      HoldsSession p s.shared a) ∧
    (∀ p q a, (s.locals p).pc = .select → (s.locals q).pc = .select →
      (s.locals p).clientAccount = some a → (s.locals q).clientAccount = some a → p = q) ∧
    (∀ p, (s.locals p).pc.transacts = true →
      ∃ a, (s.locals p).clientAccount = some a ∧ HoldsSession p s.shared a) ∧
    (∀ p, (s.locals p).pc.waits = true →
      ∀ a, (s.shared.accounts a).accountSessionMutex ≠ some p) ∧
    ∀ a, (s.shared.accounts a).inSession = .inSession →
      ∃ q, (s.shared.accounts a).accountSessionMutex = some q := by
  obtain ⟨hI, hA⟩ := invariant_of_run hr
  have hloop (p a) (hpc : (s.locals p).pc = .select) (ha : (s.locals p).clientAccount = some a) :
      HoldsSession p s.shared a := (hA p).holder ha (by rw [hpc]; rfl)
  refine ⟨hloop, fun p q a hp hq hpa hqa => ?_, fun p h => (hA p).transacts h,
    fun p h => (hA p).waits h, fun a h => Option.ne_none_iff_exists'.mp (hI.session a h)⟩
  have hp := (hloop p a hp hpa).mutex
  have hq := (hloop q a hq hqa).mutex
  exact Option.some.inj (hp.symm.trans hq)

/-- After the visit of two clients the first is in session. -/
theorem sessions_held_visit : HoldsSession 0 visit.2.shared 0 :=
  (sessions_held run_visit).1 0 0 (by decide +kernel) (by decide +kernel)

/-! ### The ways out of the loop -/

/-- **`select` fails** under a process in session. -/
structure FailsInSession (p : ℕ) (e : Step F) : Prop where
  stepper : e.op.1 = p
  pc : (e.pre.locals p).pc = .select
  session : (e.pre.locals p).clientAccount ≠ none
  failed : ∃ activeSockets < 0, e.op.2 = .select activeSockets

/-- A client that exits or answers `EXIT` has no account. -/
structure Client.Quits (c : Client F) : Prop where
  reply : c.pc = .reply → c.request.code = .exit → c.clientAccount = none
  exited : c.pc = .exited → c.clientAccount = none

private theorem Client.Quits.of_none (h : c.clientAccount = none) : c.Quits :=
  ⟨fun _ _ => h, fun _ => h⟩

/-- The points at which it has answered, or exited. -/
def Pc.ends : Pc F → Bool
  | .reply | .exited => true
  | _ => false

private theorem Client.Quits.of_pc (h : c.pc.ends = false) : c.Quits where
  reply hpc := by
    rw [hpc] at h
    cases h
  exited hpc := by
    rw [hpc] at h
    cases h

/-- Where a function answers a request that is not `EXIT`. -/
private theorem Client.Quits.of_code {α : Type} {f : α → Pc F} (h : c.pc = .reply ∨ ∃ l, c.pc = f l)
    (hpc : ∀ l, (f l).ends = false) (hcode : c.request.code ≠ .exit) : c.Quits := by
  rcases h with h | ⟨l, h⟩
  · exact ⟨fun _ heq => absurd heq hcode, fun hexit => by cases h.symm.trans hexit⟩
  · exact .of_pc (h ▸ hpc l)

private theorem endSession_quits (c : Client F) (ending : Ending) :
    (endSession c ending).Quits := by
  unfold endSession
  split
  · rename_i hnone
    exact .of_none (afterSession_spec initSessionSharedMem hnone ending).1
  · exact .of_pc rfl

/-- The switches: only `EXIT` without a session is answered at once. -/
private theorem outOfSession_quits (h : c.clientAccount = none) : (outOfSession c).Quits := by
  unfold outOfSession
  split <;> exact .of_none h

private theorem inSession_quits (c : Client F) : (inSession c).Quits := by
  unfold inSession
  split
  case h_1 hcode | h_2 hcode =>
    refine .of_code (f := Pc.clientOpen) (.inl rfl) (fun _ => rfl) ?_
    simp [Client.respond, hcode]
  case h_3 | h_4 | h_5 | h_6 | h_7 => exact .of_pc rfl
  case h_8 hexit => exact .of_code (f := Pc.clientOpen) (.inl rfl) (fun _ => rfl) hexit

/-- **A step that is not a `select`** leads out of the loop without an account only. -/
theorem client_quits (hA : Assertion p sh c) (hq : c.Quits) (hpc : c.pc ≠ .select)
    (hs : client p sh c i = some (sh', c', out)) : c'.Quits := by
  have hholds := hA.holds
  have hcode {code : RequestCode} (hcode : c.request.code = code) (hne : code ≠ .exit)
      (hrequest : c'.request = c.request) : c'.request.code ≠ .exit := by
    rwa [hrequest, hcode]
  cases client_cases hs with
  | select h => exact absurd h hpc
  | listen _ _ _ hc =>
    rw [hc]
    unfold afterRead
    split_ifs
    · exact endSession_quits _ _
    · exact .of_pc rfl
  | check h hs =>
    rcases ha : c.clientAccount with _ | a
    · simp only [check, ha] at hs
      obtain ⟨-, rfl, -⟩ := move_eq_some hs
      exact outOfSession_quits ha
    · simp only [check, ha, Option.bind_eq_bind, Option.bind_eq_some_iff] at hs
      obtain ⟨x, hx, hs⟩ := hs
      obtain rfl := account?_eq_some hx
      rw [if_pos ((hA.session a ha).mpr (by rw [h]; rfl))] at hs
      obtain ⟨-, rfl, -⟩ := move_eq_some hs
      exact inSession_quits c
  | clientOpen l h hs =>
    rw [h] at hholds
    obtain ⟨-, hrequest, hpc'⟩ := clientOpen_flow hs
    exact .of_code hpc' (fun _ => rfl) (hcode hholds.1 (by decide) hrequest)
  | clientStart l h hs =>
    rw [h] at hholds
    obtain ⟨hrequest, hpc'⟩ := clientStart_flow hs
    exact .of_code hpc' (fun _ => rfl) (hcode hholds.1 (by decide) hrequest)
  | clientDebit l h hs =>
    rw [h] at hholds
    obtain ⟨-, hrequest, -, hpc'⟩ := clientDebit_flow hs
    exact .of_code (hpc'.elim (fun h => .inl h.1) fun h => h.2) (fun _ => rfl)
      (hcode hholds.1 (by decide) hrequest)
  | clientCredit l h hs =>
    rw [h] at hholds
    obtain ⟨-, hrequest, hpc'⟩ := clientCredit_flow hs
    exact .of_code hpc' (fun _ => rfl) (hcode hholds.1 (by decide) hrequest)
  | balance l h hs =>
    rw [h] at hholds
    obtain ⟨-, hrequest, hpc'⟩ := clientBalance_flow hs
    exact .of_code hpc' (fun _ => rfl) (hcode hholds.1 (by decide) hrequest)
  | setNotInSession ending l _ hs =>
    obtain ⟨-, -, ⟨l', hpc'⟩ | rfl⟩ := setNotInSession_flow hs
    · exact .of_pc (hpc' ▸ rfl)
    · exact .of_none (afterSession_spec sh rfl ending).1
  | retry _ _ hc => rwa [hc]
  | answer h _ hc =>
    rw [hc]
    split_ifs with hexit
    · exact .of_none (hq.reply h hexit)
    · exact .of_pc rfl
  | timeOut _ h _ _ hc =>
    -- nobody times out in session
    rw [h] at hholds
    rw [hc]
    exact .of_none hholds

/-- The condition of the loop. -/
private theorem client_select (hpc : c.pc = .select) (hs : client p sh c i = some (sh', c', out)) :
    ∃ activeSockets, i = .select activeSockets ∧ c' = afterSelect c activeSockets := by
  unfold client at hs
  rw [hpc] at hs
  dsimp only at hs
  split at hs
  · obtain ⟨-, rfl, -⟩ := move_eq_some hs
    exact ⟨_, rfl, rfl⟩
  · cases hs

/-- Behind it a process with an account has exited exactly if `select` has failed. -/
private theorem afterSelect_exits (c : Client F) (n : ℤ) : (afterSelect c n).pc ≠ .reply ∧
    ((afterSelect c n).pc = .exited ∧ (afterSelect c n).clientAccount ≠ none ↔
      n < 0 ∧ c.clientAccount ≠ none) := by
  unfold afterSelect
  split_ifs with hready hzero
  · exact ⟨nofun, iff_of_false (fun h => absurd h.1 nofun) fun h => by omega⟩
  · have hq := endSession_quits c .timeOut
    refine ⟨?_, iff_of_false (fun h => h.2 (hq.exited h.1)) fun h => by omega⟩
    unfold endSession
    split <;> exact nofun
  · exact ⟨nofun, and_congr_left fun _ => iff_of_true rfl (by omega)⟩

/-- **What the exit of a process tells**: it has an account exactly if `select` has failed under
it in session. -/
structure Exits (p : ℕ) (c : Client F) (tr : List (Step F)) : Prop where
  reply : c.pc = .reply → c.request.code = .exit → c.clientAccount = none
  exited : (∃ e ∈ tr, FailsInSession p e) ↔ c.pc = .exited ∧ c.clientAccount ≠ none

private theorem Exits.quits (h : Exits p c tr) (hpc : c.pc ≠ .exited) : c.Quits :=
  ⟨h.reply, fun h => absurd h hpc⟩

/-- One step of the process itself. -/
private theorem Exits.step {e : Step F} (h : Exits e.op.1 (e.pre.locals e.op.1) tr)
    (hA : Assertion e.op.1 e.pre.shared (e.pre.locals e.op.1))
    (he : e.Occurs (program sendable).machine) :
    Exits e.op.1 (e.post.locals e.op.1) (tr ++ [e]) := by
  have hs := he.localStep
  change client e.op.1 _ _ e.op.2 = _ at hs
  have hpc : (e.pre.locals e.op.1).pc ≠ .exited := by
    intro hpc
    unfold client at hs
    rw [hpc] at hs
    cases hs
  have hnone : ¬∃ e' ∈ tr, FailsInSession e.op.1 e' := fun hf => hpc (h.exited.mp hf).1
  have hlast : (∃ e' ∈ tr ++ [e], FailsInSession e.op.1 e') ↔ FailsInSession e.op.1 e := by
    constructor
    · rintro ⟨e', he', hf⟩
      rcases List.mem_append.mp he' with he' | he'
      · exact absurd ⟨e', he', hf⟩ hnone
      · rwa [List.mem_singleton.mp he'] at hf
    · exact fun hf => ⟨e, by simp, hf⟩
  by_cases hselect : (e.pre.locals e.op.1).pc = .select
  · obtain ⟨n, hn, hpost⟩ := client_select hselect hs
    obtain ⟨hreply, hexits⟩ := afterSelect_exits (e.pre.locals e.op.1) n
    rw [hpost]
    refine ⟨fun hr => absurd hr hreply, hlast.trans (Iff.trans ⟨fun hf => ?_, fun hf => ?_⟩
      hexits.symm)⟩
    · obtain ⟨m, hm, hop⟩ := hf.failed
      obtain rfl := Input.select.inj (hop.symm.trans hn)
      exact ⟨hm, hf.session⟩
    · exact ⟨rfl, hselect, hf.2, n, hf.1, hn⟩
  · have hq := client_quits hA (h.quits hpc) hselect hs
    refine ⟨hq.reply, hlast.trans (iff_of_false (fun hf => hselect hf.pc) ?_)⟩
    exact fun hexit => hexit.2 (hq.exited hexit.1)

/-- Every process, in every run. -/
private theorem exits_of_run (hr : Run (program sendable).machine (start sendable) tr s) (p : ℕ) :
    Exits p (s.locals p) tr := by
  refine hr.invariant_trace (I := fun tr s => Exits p (s.locals p) tr)
    ⟨nofun, by simp [start, Program.start, program, Client.init]⟩ fun tr e hr h he => ?_
  by_cases hp : p = e.op.1
  · subst hp
    exact h.step ((invariant_of_run hr).2 _) he
  · rw [he.locals_of_ne hp]
    refine ⟨h.reply, Iff.trans ⟨?_, ?_⟩ h.exited⟩
    · rintro ⟨e', he', hf⟩
      rcases List.mem_append.mp he' with he' | he'
      · exact ⟨e', he', hf⟩
      · rw [List.mem_singleton.mp he'] at hf
        exact absurd hf.stepper.symm hp
    · rintro ⟨e', he', hf⟩
      exact ⟨e', List.mem_append_left _ he', hf⟩

/-! ### The session of a process that has exited -/

/-- **A process has closed its sessions**: it holds no mutex, and an account that is in session is
in session with another process. -/
structure Released (p : ℕ) (sh : ServerSession F) : Prop where
  mutex : ∀ a, (sh.accounts a).accountSessionMutex ≠ some p
  session : ∀ a, (sh.accounts a).inSession = .inSession →
    ∃ q, q ≠ p ∧ (sh.accounts a).accountSessionMutex = some q

private theorem released_iff_clientAccount (hI : Invariant sh) (hA : Assertion p sh c) :
    Released p sh ↔ c.clientAccount = none := by
  constructor
  · intro h
    by_contra hne
    obtain ⟨a, ha⟩ := Option.ne_none_iff_exists'.mp hne
    exact h.mutex a ((hA.mutex a).mpr ha)
  · intro hnone
    refine ⟨hA.mutex_ne hnone, fun a h => ?_⟩
    obtain ⟨q, hq⟩ := Option.ne_none_iff_exists'.mp (hI.session a h)
    refine ⟨q, ?_, hq⟩
    rintro rfl
    exact hA.mutex_ne hnone a hq

/-- **An account that a process lets go** is free and not in session. -/
theorem Change.let_go (hc : Change p sh sh') (hI : Invariant sh)
    (h : (sh.accounts a).accountSessionMutex = some p)
    (h' : (sh'.accounts a).accountSessionMutex ≠ some p) :
    (sh'.accounts a).accountSessionMutex = Option.none ∧
      (sh'.accounts a).inSession = .notInSession := by
  have hsame {b : ℕ} {f : Account F → Account F} (hsh : sh' = sh.modify b f) : a = b := by
    by_contra hne
    rw [hsh, sh.modify_accounts_of_ne b f hne] at h'
    exact h' h
  cases hc with
  | none | lock | unlock | count => exact absurd h h'
  | take b hb =>
    rw [hsame rfl, hb] at h
    cases h
  | own b f _ hf =>
    obtain rfl := hsame rfl
    rw [sh.modify_accounts_self, hf] at h'
    exact absurd h h'
  | release b hb hs =>
    obtain rfl := hsame rfl
    rw [sh.modify_accounts_self]
    refine ⟨rfl, ?_⟩
    cases hin : (sh.accounts a).inSession
    · rfl
    · exact absurd hin hs
  | init f =>
    obtain rfl := hsame rfl
    rw [(hI.blank _ le_rfl).mutex] at h
    cases h

/-- **Which processes close their sessions.** In every run a process that has exited has closed
its sessions exactly if `select` has never failed under it in session. Whatever the way, an account
is free and not in session when its process lets it go. -/
theorem released_iff (hr : Run (program sendable).machine (start sendable) tr s)
    (hpc : (s.locals p).pc = .exited) :
    (Released p s.shared ↔ ∀ e ∈ tr, ¬FailsInSession p e) ∧
    ∀ e ∈ tr, ∀ a, e.op.1 = p → (e.pre.locals p).clientAccount = some a →
      (e.post.locals p).clientAccount = none →
      (e.post.shared.accounts a).accountSessionMutex = none ∧
        (e.post.shared.accounts a).inSession = .notInSession := by
  obtain ⟨hI, hA⟩ := invariant_of_run hr
  constructor
  · have hexited := (exits_of_run hr p).exited
    rw [released_iff_clientAccount hI (hA p), ← not_iff_not]
    push Not
    exact ⟨fun hne => hexited.mpr ⟨hpc, hne⟩, fun hf => (hexited.mp hf).2⟩
  · rintro e he a rfl ha hnone
    obtain ⟨hI, hA, hocc⟩ := step_of_mem hr he
    obtain ⟨hc, hA'⟩ := client_spec hI (hA e.op.1) hocc.legal.free hocc.localStep
    exact hc.let_go hI (((hA e.op.1).mutex a).mpr ha) (hA'.mutex_ne hnone a)

/-! ### A client with one session -/

/-- A client opens an account and starts a session. -/
def sessionSteps : List (ℕ × Input) :=
  receive 0 ⟨.open_, ['a']⟩ ++ List.replicate 110 (0, .go) ++ [(0, .write 304)] ++
  receive 0 ⟨.start, ['a']⟩ ++ List.replicate 7 (0, .go) ++ [(0, .write 304)]

/-- And exits. -/
def exitSteps : List (ℕ × Input) :=
  sessionSteps ++ receive 0 ⟨.exit, []⟩ ++ List.replicate 2 (0, .go) ++ [(0, .write 304)]

private theorem exit_isSome : ((program (F := ℚ) fun _ => True).machine.exec
    (start fun _ => True) exitSteps).isSome := by decide +kernel

/-- The run of the client that exits. -/
def exitRun : List (Step ℚ) × Configuration ℕ (ServerSession ℚ) (Client ℚ) :=
  ((program fun _ => True).machine.exec (start fun _ => True) exitSteps).get exit_isSome

theorem released_iff_exit :
    (Released 0 exitRun.2.shared ↔ ∀ e ∈ exitRun.1, ¬FailsInSession 0 e) ∧
    ∀ e ∈ exitRun.1, ∀ a, e.op.1 = 0 → (e.pre.locals 0).clientAccount = some a →
      (e.post.locals 0).clientAccount = none →
      (e.post.shared.accounts a).accountSessionMutex = none ∧
        (e.post.shared.accounts a).inSession = .notInSession :=
  released_iff (Machine.run_get exit_isSome) (by decide +kernel)

/-- And `select` fails under it. -/
private theorem failed_isSome : ((program (F := ℚ) fun _ => True).machine.exec
    (start fun _ => True) (sessionSteps ++ [(0, .select (-1))])).isSome := by decide +kernel

/-- A client in session under which `select` fails keeps the session. -/
theorem not_released : ¬∀ (tr : List (Step ℚ))
    (s : Configuration ℕ (ServerSession ℚ) (Client ℚ)) (p : ℕ),
    Run (program fun _ => True).machine (start fun _ => True) tr s →
      (s.locals p).pc = .exited → Released p s.shared := by
  intro h
  have hreleased := h _ _ 0 (Machine.run_get failed_isSome) (by decide +kernel)
  exact hreleased.mutex 0 (by decide +kernel)

end Cs214.MultithreadedBanking
