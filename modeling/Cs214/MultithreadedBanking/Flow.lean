import Cs214.MultithreadedBanking.Ownership

/-!
# Where a step leads

Each function of the server stays at its own points until it goes on to write the response, and
keeps the request it answers; the request changes only where one is received
(`client_request`).
-/

namespace Cs214.MultithreadedBanking

set_option linter.unusedSectionVars false

variable {F : Type} [Arithmetic F] {p a : ℕ} {sh sh' : ServerSession F} {c c' : Client F}
  {i : Input} {out : Output} {sendable : Request → Prop} {tr : List (Step F)}
  {s : Configuration ℕ (ServerSession F) (Client F)}

/-- The search of `client_open` stays in it. -/
private theorem openSearch_flow (c : Client F) (n : ℕ) (r : Search) :
    (openSearch c n r).request = c.request ∧ ∃ l, (openSearch c n r).pc = .clientOpen l := by
  match r with
  | .compare _ _ | .result none | .result (some _) => exact ⟨rfl, _, rfl⟩

/-- The search of `client_start` stays in it, or is answered. -/
private theorem startSearch_flow (c : Client F) (n : ℕ) (r : Search) :
    (startSearch c n r).request = c.request ∧
      ((startSearch c n r).pc = .reply ∨ ∃ l, (startSearch c n r).pc = .clientStart l) := by
  match r with
  | .compare _ _ => exact ⟨rfl, .inr ⟨_, rfl⟩⟩
  | .result none => exact ⟨rfl, .inl rfl⟩
  | .result (some index) =>
    simp only [startSearch]
    split
    · exact ⟨rfl, .inl rfl⟩
    · exact ⟨rfl, .inr ⟨_, rfl⟩⟩

/-- **`client_open`** answers the request it was called with. -/
theorem clientOpen_flow {l : OpenPc} (hs : clientOpen p sh c l = some (sh', c', out)) :
    out = .silent ∧ c'.request = c.request ∧ (c'.pc = .reply ∨ ∃ l, c'.pc = .clientOpen l) := by
  cases clientOpen_cases hs with
  | count => exact ⟨rfl, (openSearch_flow c _ _).imp_right .inr⟩
  | @search n _ _ r => exact ⟨rfl, (openSearch_flow c n r).imp_right .inr⟩
  | refused | opened => exact ⟨rfl, rfl, .inl rfl⟩
  | _ => exact ⟨rfl, rfl, .inr ⟨_, rfl⟩⟩

/-- **`client_start`** answers the request it was called with. -/
theorem clientStart_flow {l : StartPc} (hs : clientStart p sh c i l = some (sh', c', out)) :
    c'.request = c.request ∧ (c'.pc = .reply ∨ ∃ l, c'.pc = .clientStart l) := by
  cases clientStart_cases hs with
  | unlock n => exact startSearch_flow c n _
  | @search n _ _ r => exact startSearch_flow c n r
  | enter => exact ⟨rfl, .inl rfl⟩
  | _ => exact ⟨rfl, .inr ⟨_, rfl⟩⟩

/-- **`client_debit`** stores the balance or leaves the shared memory as it is. -/
theorem clientDebit_flow {l : DebitPc F} (hs : clientDebit sh c l = some (sh', c', out)) :
    out = .silent ∧ c'.request = c.request ∧ c'.clientAccount = c.clientAccount ∧
      ((c'.pc = .reply ∧ c'.response.code = .success) ∨
        (sh' = sh ∧ (c'.pc = .reply ∨ ∃ l, c'.pc = .clientDebit l))) := by
  obtain ⟨index, -, hs⟩ := Option.bind_eq_some_iff.mp hs
  obtain ⟨x, -, hs⟩ := Option.bind_eq_some_iff.mp hs
  cases l with
  | test =>
    dsimp only at hs
    split at hs
    · obtain ⟨rfl, rfl, rfl⟩ := move_eq_some hs
      exact ⟨rfl, rfl, rfl, .inr ⟨rfl, .inr ⟨_, rfl⟩⟩⟩
    · obtain ⟨rfl, rfl, rfl⟩ := move_eq_some hs
      exact ⟨rfl, rfl, rfl, .inr ⟨rfl, .inr ⟨_, rfl⟩⟩⟩
  | load =>
    obtain ⟨rfl, rfl, rfl⟩ := move_eq_some hs
    exact ⟨rfl, rfl, rfl, .inr ⟨rfl, .inr ⟨_, rfl⟩⟩⟩
  | store =>
    obtain ⟨-, rfl, rfl⟩ := move_eq_some hs
    exact ⟨rfl, rfl, rfl, .inl ⟨rfl, rfl⟩⟩
  | refused =>
    obtain ⟨rfl, rfl, rfl⟩ := move_eq_some hs
    exact ⟨rfl, rfl, rfl, .inr ⟨rfl, .inl rfl⟩⟩

/-- **`client_credit`** answers the request it was called with. -/
theorem clientCredit_flow {l : CreditPc F} (hs : clientCredit sh c l = some (sh', c', out)) :
    out = .silent ∧ c'.request = c.request ∧ (c'.pc = .reply ∨ ∃ l, c'.pc = .clientCredit l) := by
  obtain ⟨index, -, hs⟩ := Option.bind_eq_some_iff.mp hs
  obtain ⟨x, -, hs⟩ := Option.bind_eq_some_iff.mp hs
  cases l with
  | load =>
    obtain ⟨-, rfl, rfl⟩ := move_eq_some hs
    exact ⟨rfl, rfl, .inr ⟨_, rfl⟩⟩
  | store =>
    obtain ⟨-, rfl, rfl⟩ := move_eq_some hs
    exact ⟨rfl, rfl, .inl rfl⟩

/-- **The case `BALANCE`** answers the request it was called with. -/
theorem clientBalance_flow {l : BalancePc F} (hs : clientBalance sh c l = some (sh', c', out)) :
    out = .silent ∧ c'.request = c.request ∧ (c'.pc = .reply ∨ ∃ l, c'.pc = .balance l) := by
  obtain ⟨index, -, hs⟩ := Option.bind_eq_some_iff.mp hs
  obtain ⟨x, -, hs⟩ := Option.bind_eq_some_iff.mp hs
  cases l with
  | load =>
    obtain ⟨-, rfl, rfl⟩ := move_eq_some hs
    exact ⟨rfl, rfl, .inr ⟨_, rfl⟩⟩
  | name =>
    obtain ⟨-, rfl, rfl⟩ := move_eq_some hs
    exact ⟨rfl, rfl, .inl rfl⟩

private theorem afterSession_request (c : Client F) (ending : Ending) :
    (afterSession c ending).request = c.request := by cases ending <;> rfl

/-- **`set_not_in_session`** returns to where it was called. -/
theorem setNotInSession_flow {ending : Ending} {l : EndPc}
    (hs : setNotInSession sh c ending l = some (sh', c', out)) :
    out = .silent ∧ c'.request = c.request ∧ ((∃ l, c'.pc = .setNotInSession ending l) ∨
      c' = afterSession { c with clientAccount := none } ending) := by
  obtain ⟨index, -, hs⟩ := Option.bind_eq_some_iff.mp hs
  obtain ⟨x, -, hs⟩ := Option.bind_eq_some_iff.mp hs
  cases l with
  | store =>
    obtain ⟨-, rfl, rfl⟩ := move_eq_some hs
    exact ⟨rfl, rfl, .inl ⟨_, rfl⟩⟩
  | unlock =>
    obtain ⟨-, rfl, rfl⟩ := move_eq_some hs
    exact ⟨rfl, afterSession_request _ _, .inr rfl⟩

/-- The other points keep the request. -/
private theorem endSession_request (c : Client F) (ending : Ending) :
    (endSession c ending).request = c.request := by
  unfold endSession
  split
  · exact afterSession_request c ending
  · rfl

private theorem outOfSession_request (c : Client F) : (outOfSession c).request = c.request := by
  unfold outOfSession
  split <;> rfl

private theorem inSession_request (c : Client F) : (inSession c).request = c.request := by
  unfold inSession
  split <;> rfl

/-- A test of the session moves the process. -/
theorem check_flow (hs : check sh c = some (sh', c', out)) :
    out = .silent ∧ sh' = sh ∧ (c' = inSession c ∨ c' = outOfSession c) := by
  unfold check at hs
  split at hs
  · obtain ⟨rfl, rfl, rfl⟩ := move_eq_some hs
    exact ⟨rfl, rfl, .inr rfl⟩
  · obtain ⟨x, -, hs⟩ := Option.bind_eq_some_iff.mp hs
    split at hs
    · obtain ⟨rfl, rfl, rfl⟩ := move_eq_some hs
      exact ⟨rfl, rfl, .inl rfl⟩
    · obtain ⟨rfl, rfl, rfl⟩ := move_eq_some hs
      exact ⟨rfl, rfl, .inr rfl⟩

/-- **A process keeps its request** until it receives another. -/
theorem client_request (hs : client p sh c i = some (sh', c', out)) :
    c'.request = c.request ∨ ∃ n, n ≠ 0 ∧ i = .read n c'.request := by
  cases client_cases hs with
  | select _ _ _ hc =>
    rw [hc]
    unfold afterSelect
    split_ifs
    · exact .inl rfl
    · exact .inl (endSession_request _ _)
    · exact .inl rfl
  | listen _ hi _ hc =>
    rw [hc, hi]
    unfold afterRead
    split_ifs with hn
    · exact .inl (endSession_request _ _)
    · exact .inr ⟨_, hn, rfl⟩
  | check _ hs =>
    obtain ⟨-, -, rfl | rfl⟩ := check_flow hs
    · exact .inl (inSession_request c)
    · exact .inl (outOfSession_request c)
  | clientOpen l _ hs => exact .inl (clientOpen_flow hs).2.1
  | clientStart l _ hs => exact .inl (clientStart_flow hs).1
  | clientDebit l _ hs => exact .inl (clientDebit_flow hs).2.1
  | clientCredit l _ hs => exact .inl (clientCredit_flow hs).2.1
  | balance l _ hs => exact .inl (clientBalance_flow hs).2.1
  | setNotInSession ending l _ hs => exact .inl (setNotInSession_flow hs).2.1
  | retry _ _ hc | answer _ _ hc | timeOut _ _ _ _ hc =>
    rw [hc]
    exact .inl rfl

/-! ### The account pointer -/

/-- A search does not change the account of the session. -/
private theorem openSearch_clientAccount (c : Client F) (n : ℕ) (r : Search) :
    (openSearch c n r).clientAccount = c.clientAccount := by
  match r with
  | .compare _ _ | .result none | .result (some _) => rfl

theorem startSearch_clientAccount (c : Client F) (n : ℕ) (r : Search) :
    (startSearch c n r).clientAccount = c.clientAccount := by
  match r with
  | .compare _ _ | .result none => rfl
  | .result (some index) =>
    simp only [startSearch]
    split <;> rfl

/-- `client_open` is called without an account and returns without one. -/
theorem clientOpen_clientAccount {l : OpenPc} (hs : clientOpen p sh c l = some (sh', c', out)) :
    c'.clientAccount = c.clientAccount := by
  cases clientOpen_cases hs with
  | count => exact openSearch_clientAccount c _ _
  | @search n _ _ r => exact openSearch_clientAccount c n r
  | _ => rfl

/-- `client_start` sets it where the mutex of the account is taken. -/
private theorem clientStart_clientAccount {l : StartPc}
    (hs : clientStart p sh c i l = some (sh', c', out)) :
    c'.clientAccount = c.clientAccount ∨ ∃ a, l = .trylock a ∧ c'.clientAccount = some a := by
  cases clientStart_cases hs with
  | unlock n => exact .inl (startSearch_clientAccount c n _)
  | @search n _ _ r => exact .inl (startSearch_clientAccount c n r)
  | @take index => exact .inr ⟨index, rfl, rfl⟩
  | _ => exact .inl rfl

theorem afterSession_clientAccount (c : Client F) (ending : Ending) :
    (afterSession c ending).clientAccount = c.clientAccount := by cases ending <;> rfl

private theorem endSession_clientAccount (c : Client F) (ending : Ending) :
    (endSession c ending).clientAccount = c.clientAccount := by
  unfold endSession
  split
  · exact afterSession_clientAccount c ending
  · rfl

/-- Nor does the switch. -/
private theorem outOfSession_clientAccount (c : Client F) :
    (outOfSession c).clientAccount = c.clientAccount := by
  unfold outOfSession
  split <;> rfl

/-- **A process gets an account** in the trylock of `client_start` only. -/
theorem client_binds (hs : client p sh c i = some (sh', c', out)) (hnone : c.clientAccount = none) :
    c'.clientAccount = none ∨
      ∃ a, c.pc = .clientStart (.trylock a) ∧ c'.clientAccount = some a := by
  have hkeeps (h : c'.clientAccount = c.clientAccount) : c'.clientAccount = none ∨
      ∃ a, c.pc = .clientStart (.trylock a) ∧ c'.clientAccount = some a := .inl (h.trans hnone)
  cases client_cases hs with
  | select _ _ _ hc =>
    refine hkeeps ?_
    rw [hc]
    unfold afterSelect
    split_ifs
    · rfl
    · exact endSession_clientAccount c _
    · rfl
  | listen _ _ _ hc =>
    refine hkeeps ?_
    rw [hc]
    unfold afterRead
    split_ifs
    · exact endSession_clientAccount c _
    · rfl
  | check _ hs =>
    simp only [check, hnone] at hs
    obtain ⟨-, rfl, -⟩ := move_eq_some hs
    exact hkeeps (outOfSession_clientAccount c)
  | clientOpen l _ hs => exact hkeeps (clientOpen_clientAccount hs)
  | clientStart l hpc hs =>
    rcases clientStart_clientAccount hs with h | ⟨a, rfl, ha⟩
    · exact hkeeps h
    · exact .inr ⟨a, hpc, ha⟩
  | clientDebit l _ hs => simp [clientDebit, hnone] at hs
  | clientCredit l _ hs => simp [clientCredit, hnone] at hs
  | balance l _ hs => simp [clientBalance, hnone] at hs
  | setNotInSession ending l _ hs => simp [setNotInSession, hnone] at hs
  | retry _ _ hc | answer _ _ hc | timeOut _ _ _ _ hc => exact hkeeps (hc ▸ rfl)

/-! ### Responses -/

/-- **Who writes a response**: a process that replies, one that waits for a session, and one
that has timed out. -/
theorem client_output {r : Response} (hs : client p sh c i = some (sh', c', .wrote r)) :
    (c.pc = .reply ∧ r = c.response ∧ sh' = sh) ∨
      (∃ index, c.pc = .clientStart (.wait index) ∧ r = c.response) ∨
      (c.pc = .timeOut ∧ r.code = .connectionTimeOut) := by
  cases client_cases hs with
  | select _ _ _ _ hout | listen _ _ _ _ hout | retry _ _ _ hout => cases hout
  | check _ hs => cases (check_flow hs).1
  | clientOpen l _ hs => cases (clientOpen_flow hs).1
  | clientStart l hpc hs =>
    generalize hout : Output.wrote r = out at hs
    cases clientStart_cases hs with
    | wait index => exact .inr (.inl ⟨index, hpc, (eq_of_write_eq_wrote hout.symm).symm⟩)
    | _ => cases hout
  | clientDebit l _ hs => cases (clientDebit_flow hs).1
  | clientCredit l _ hs => cases (clientCredit_flow hs).1
  | balance l _ hs => cases (clientBalance_flow hs).1
  | setNotInSession ending l _ hs => cases (setNotInSession_flow hs).1
  | answer hpc hsh _ hout => exact .inl ⟨hpc, Output.wrote.inj hout, hsh⟩
  | timeOut r' hpc hr _ _ hout =>
    obtain rfl := eq_of_write_eq_wrote hout.symm
    exact .inr (.inr ⟨hpc, congrArg Response.code hr⟩)

/-- **Every request in hand was received**, except the contents of the buffer at the start. -/
theorem request_of_run (hr : Run (program sendable).machine (start sendable) tr s) (p : ℕ) :
    sendable (s.locals p).request ∨ (s.locals p).request = (Client.init : Client F).request := by
  refine (hr.relyGuarantee (G := fun _ => True) (R := fun _ _ _ => True)
    (A := fun _ _ c => sendable c.request ∨ c.request = (Client.init : Client F).request)
    trivial (fun _ => .inr rfl) ?_ ?_).2 p
  · intro p sh c i sh' c' out _ hA hen hs
    refine ⟨trivial, ?_, trivial⟩
    rcases client_request hs with hsame | ⟨n, hn, rfl⟩
    · rwa [hsame]
    · exact .inl (hen.sent hn)
  · intro p q sh sh' c _ _ hA _
    exact hA

end Cs214.MultithreadedBanking
