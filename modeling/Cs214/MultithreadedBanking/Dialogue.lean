import Cs214.MultithreadedBanking.Atomic

/-!
# The dialogue with a client

What is seen on one connection follows a protocol, and `Phase.next` is its automaton: a client
that has sent a request gets one answer, of a kind that suits the request, before its next request
is received; only a START may be told to wait, any number of times; after the answer to EXIT, after
the end of the connection and after a failure of `select` there is nothing more, and after a
time-out at most one message.

How far the dialogue is can be told from the point of the code (`Pc.phase`), and every step of a
process follows the protocol (`client_follows`), whatever requests it receives.
-/

namespace Cs214.MultithreadedBanking

open Tokenizer (CString)

set_option linter.unusedSectionVars false

variable {F : Type} [Arithmetic F] {p q : ℕ} {sh sh' : ServerSession F} {c c' : Client F}
  {i : Input} {out : Output} {r : Request} {sendable : Request → Prop} {tr : List (Step F)}
  {s : Configuration ℕ (ServerSession F) (Client F)}

/-! ### The protocol -/

/-- The codes of the last answer to a request. -/
def answerCodes (r : Request) : List ResponseCode :=
  match r.code with
  | .open_ => [.success, .cannotOpen]
  | .start => [.success, .cannotStart]
  | .debit => [.success, .balanceReachZero, .clientNotInSession]
  | .credit | .balance | .finish | .other _ => [.success, .clientNotInSession]
  | .exit => [.accountExit]

/-- **How far a dialogue is.** -/
inductive Phase
  | idle
  | asked (request : Request)
  | expired
  | ended
  deriving DecidableEq, Repr

/-- **One event of a dialogue**, where it is in order. -/
def Phase.next : Phase → Seen → Option Phase
  | .idle, .received r => some (.asked r)
  | .idle, .closed | .idle, .failed => some .ended
  | .idle, .timedOut => some .expired
  | .asked r, .answered a =>
    if a = waitAnswer then
      if r.code = .start then some (.asked r) else none
    else if a.code ∈ answerCodes r then some (if r.code = .exit then .ended else .idle)
    else none
  | .expired, .answered a => if a = timeOutAnswer then some .ended else none
  | _, _ => none

/-- A whole dialogue, none being a breach of the protocol. -/
def dialogue (events : List Seen) : Option Phase := events.foldlM Phase.next .idle

/-- What is seen on one connection. -/
def heard (p : ℕ) (l : List (ℕ × Seen)) : List Seen :=
  l.filterMap fun x => if x.1 = p then some x.2 else none

private theorem dialogue_append {l l' : List Seen} {phase : Phase} (h : dialogue l = some phase) :
    dialogue (l ++ l') = l'.foldlM Phase.next phase := by
  rw [dialogue, List.foldlM_append, show l.foldlM Phase.next .idle = some phase from h]
  rfl

private theorem heard_append (p : ℕ) (l l' : List (ℕ × Seen)) :
    heard p (l ++ l') = heard p l ++ heard p l' := List.filterMap_append

/-! ### Answers that suit a request -/

/-- **A response that suits a request**, as the last answer to it. -/
structure Response.Suits (a : Response) (r : Request) : Prop where
  ne_wait : a ≠ waitAnswer
  code : a.code ∈ answerCodes r

/-- Another code than success is not the word to wait. -/
private theorem suits_of_code {code : ResponseCode} {message : CString}
    (hmem : code ∈ answerCodes r)
    (hne : code ≠ .success) : (formResponse code message).Suits r :=
  ⟨fun heq => hne (congrArg Response.code heq), hmem⟩

/-- No other message starts like the word to wait. -/
private theorem suits_of_head {message : CString} (hmem : .success ∈ answerCodes r)
    (hne : message.head? ≠ some 'W') : (formResponse .success message).Suits r := by
  refine ⟨fun heq => hne ?_, hmem⟩
  have hmessage : message = "Waiting to start customer session.".toList :=
    congrArg Response.message heq
  rw [hmessage]
  rfl

/-! ### The points of the code -/

/-- **How far the dialogue is** at a point of `client()`. -/
def Pc.phase (c : Client F) : Pc F → Phase
  | .select | .listen => .idle
  | .setNotInSession .disconnect _ | .exited => .ended
  | .setNotInSession .timeOut _ | .timeOut => .expired
  | _ => .asked c.request

/-- What is known of the response where it has been formed. -/
def Pc.Formed (c : Client F) : Pc F → Prop
  | .reply | .clientOpen (.unlock false) => c.response.Suits c.request
  | .clientStart (.wait _) => c.response = waitAnswer
  | _ => True

/-- **A process is at an answer** to the request `r`. -/
structure Client.Answers (r : Request) (c : Client F) : Prop where
  phase : c.pc.phase c = .asked r
  formed : c.pc.Formed c

private theorem respond_answers {code : ResponseCode} {message : CString}
    (h : (formResponse code message).Suits c.request) :
    (c.respond code message).Answers c.request := ⟨rfl, h⟩

private theorem openSearch_answers (c : Client F) (n : ℕ) (r : Search) :
    (openSearch c n r).Answers c.request := by
  match r with
  | .compare _ _ | .result none | .result (some _) => exact ⟨rfl, trivial⟩

/-- **A step of `client_open`** is at the answer. -/
theorem clientOpen_answers {l : OpenPc} (hcode : c.request.code = .open_)
    (hformed : (Pc.clientOpen l).Formed c) (hs : clientOpen p sh c l = some (sh', c', out)) :
    c'.Answers c.request := by
  have hrefuse (message : CString) : (formResponse .cannotOpen message).Suits c.request :=
    suits_of_code (by simp [answerCodes, hcode]) ResponseCode.noConfusion
  cases clientOpen_cases hs with
  | full | present => exact ⟨rfl, hrefuse _⟩
  | count | search => exact openSearch_answers c _ _
  | name index j =>
    simp only [Client.goto]
    split <;> exact ⟨rfl, trivial⟩
  | refused => exact ⟨rfl, hformed⟩
  | opened => exact respond_answers (suits_of_head (by simp [answerCodes, hcode]) (by simp))
  | _ => exact ⟨rfl, trivial⟩

private theorem startSearch_answers (hcode : c.request.code = .start) (n : ℕ) (r : Search) :
    (startSearch c n r).Answers c.request := by
  have hrefuse (message : CString) : (formResponse .cannotStart message).Suits c.request :=
    suits_of_code (by simp [answerCodes, hcode]) ResponseCode.noConfusion
  match r with
  | .compare _ _ => exact ⟨rfl, trivial⟩
  | .result none => exact respond_answers (hrefuse _)
  | .result (some index) =>
    simp only [startSearch]
    split
    · exact respond_answers (hrefuse _)
    · exact ⟨rfl, trivial⟩

/-- **A step of `client_start`** is at the answer, and writes nothing but the word to wait. -/
theorem clientStart_answers {l : StartPc} (hcode : c.request.code = .start)
    (hformed : (Pc.clientStart l).Formed c) (hs : clientStart p sh c i l = some (sh', c', out)) :
    c'.Answers c.request ∧ (out = .silent ∨ out = .wrote waitAnswer) := by
  cases clientStart_cases hs with
  | unlock | search => exact ⟨startSearch_answers hcode _ _, .inl rfl⟩
  | busy => exact ⟨⟨rfl, rfl⟩, .inl rfl⟩
  | wait index written =>
    refine ⟨⟨rfl, trivial⟩, ?_⟩
    unfold write
    rw [show c.response = waitAnswer from hformed]
    split
    · exact .inl rfl
    · exact .inr rfl
  | enter =>
    exact ⟨respond_answers (suits_of_head (by simp [answerCodes, hcode]) (by simp)), .inl rfl⟩
  | _ => exact ⟨⟨rfl, trivial⟩, .inl rfl⟩

/-- **A step of `client_debit`** is at the answer. -/
theorem clientDebit_answers {l : DebitPc F} (hcode : c.request.code = .debit)
    (hs : clientDebit sh c l = some (sh', c', out)) : c'.Answers c.request := by
  obtain ⟨index, -, hs⟩ := Option.bind_eq_some_iff.mp hs
  obtain ⟨x, -, hs⟩ := Option.bind_eq_some_iff.mp hs
  cases l with
  | test =>
    dsimp only at hs
    split at hs
    · obtain ⟨-, rfl, -⟩ := move_eq_some hs
      exact ⟨rfl, trivial⟩
    · obtain ⟨-, rfl, -⟩ := move_eq_some hs
      exact ⟨rfl, trivial⟩
  | load =>
    obtain ⟨-, rfl, -⟩ := move_eq_some hs
    exact ⟨rfl, trivial⟩
  | store =>
    obtain ⟨-, rfl, -⟩ := move_eq_some hs
    exact respond_answers (suits_of_head (by simp [answerCodes, hcode]) (by simp))
  | refused =>
    obtain ⟨-, rfl, -⟩ := move_eq_some hs
    exact respond_answers (suits_of_code (by simp [answerCodes, hcode]) ResponseCode.noConfusion)

/-- **A step of `client_credit`** is at the answer. -/
theorem clientCredit_answers {l : CreditPc F} (hcode : c.request.code = .credit)
    (hs : clientCredit sh c l = some (sh', c', out)) : c'.Answers c.request := by
  obtain ⟨index, -, hs⟩ := Option.bind_eq_some_iff.mp hs
  obtain ⟨x, -, hs⟩ := Option.bind_eq_some_iff.mp hs
  cases l with
  | load =>
    obtain ⟨-, rfl, -⟩ := move_eq_some hs
    exact ⟨rfl, trivial⟩
  | store =>
    obtain ⟨-, rfl, -⟩ := move_eq_some hs
    exact respond_answers (suits_of_head (by simp [answerCodes, hcode]) (by simp))

/-- **A step of the case `BALANCE`** is at the answer. -/
theorem clientBalance_answers {l : BalancePc F} (hcode : c.request.code = .balance)
    (hs : clientBalance sh c l = some (sh', c', out)) : c'.Answers c.request := by
  obtain ⟨index, -, hs⟩ := Option.bind_eq_some_iff.mp hs
  obtain ⟨x, -, hs⟩ := Option.bind_eq_some_iff.mp hs
  cases l with
  | load =>
    obtain ⟨-, rfl, -⟩ := move_eq_some hs
    exact ⟨rfl, trivial⟩
  | name =>
    obtain ⟨-, rfl, -⟩ := move_eq_some hs
    exact respond_answers (suits_of_head (by simp [answerCodes, hcode]) (by simp))

/-- The switch for a client without a session. -/
private theorem outOfSession_answers (c : Client F) : (outOfSession c).Answers c.request := by
  unfold outOfSession
  split
  case h_1 | h_2 => exact ⟨rfl, trivial⟩
  case h_3 hcode =>
    exact respond_answers (suits_of_code (by simp [answerCodes, hcode]) ResponseCode.noConfusion)
  case h_4 =>
    refine respond_answers (suits_of_code ?_ ResponseCode.noConfusion)
    rcases hcode : c.request.code
    case open_ | start | exit => contradiction
    all_goals simp [answerCodes, hcode]

/-- The switch for a client in session. -/
private theorem inSession_answers (c : Client F) : (inSession c).Answers c.request := by
  unfold inSession
  split
  case h_1 hcode | h_2 hcode =>
    exact respond_answers (suits_of_code (by simp [answerCodes, hcode]) ResponseCode.noConfusion)
  case h_3 | h_4 | h_5 | h_6 | h_7 => exact ⟨rfl, trivial⟩
  case h_8 =>
    refine respond_answers (suits_of_head ?_ (by simp))
    rcases hcode : c.request.code
    case other => simp [answerCodes, hcode]
    all_goals contradiction

/-! ### Every step -/

/-- **A process follows the dialogue**, which has come to `phase`. Where the word that the time is
over has not got out, the dialogue stays at the time-out. -/
structure Client.Follows (c : Client F) (phase : Phase) : Prop where
  formed : c.pc.Formed c
  phase : phase = c.pc.phase c ∨ (c.pc = .exited ∧ phase = .expired)

private theorem Client.Answers.follows (h : c'.Answers r) : c'.Follows (.asked r) :=
  ⟨h.formed, .inl h.phase.symm⟩

/-- Nothing was heard in the step. -/
private theorem hears_nothing {phase : Phase} (h : c'.Follows phase) : ∃ phase',
    (heard p (none : Option (ℕ × Seen)).toList).foldlM Phase.next phase = some phase' ∧
      c'.Follows phase' := ⟨phase, rfl, h⟩

/-- One event was heard. -/
private theorem hears {event : Seen} {phase phase' : Phase} (hnext : phase.next event = some phase')
    (h : c'.Follows phase') : ∃ phase',
    (heard p (some (p, event)).toList).foldlM Phase.next phase = some phase' ∧
      c'.Follows phase' := by
  refine ⟨phase', ?_, h⟩
  simpa [heard] using hnext

/-- The end of a session is heard before it. -/
private theorem endSession_follows {ending : Ending} {phase : Phase}
    (hafter : (afterSession c ending).Follows phase)
    (hphase : (Pc.setNotInSession ending .store).phase c = phase) :
    (endSession c ending).Follows phase := by
  unfold endSession
  split
  · exact hafter
  · exact ⟨trivial, .inl hphase.symm⟩

/-- **The result of `select`.** -/
theorem select_follows (c : Client F) (n : ℤ) : ∃ phase',
    (heard p (seen p (.select n) .silent).toList).foldlM Phase.next .idle = some phase' ∧
      (afterSelect c n).Follows phase' := by
  by_cases hready : 0 < n
  · rw [seen, if_pos hready, afterSelect, if_pos hready]
    exact hears_nothing ⟨trivial, .inl rfl⟩
  · rw [seen, if_neg hready, afterSelect, if_neg hready]
    by_cases hzero : n = 0
    · rw [if_pos hzero, if_pos hzero]
      exact hears rfl (endSession_follows ⟨trivial, .inl rfl⟩ rfl)
    · rw [if_neg hzero, if_neg hzero]
      exact hears rfl ⟨trivial, .inl rfl⟩

/-- **The result of `read`.** -/
theorem listen_follows (c : Client F) (n : ℤ) (r : Request) : ∃ phase',
    (heard p (seen p (.read n r) .silent).toList).foldlM Phase.next .idle = some phase' ∧
      (afterRead c n r).Follows phase' := by
  by_cases hzero : n = 0
  · rw [seen, if_pos hzero, afterRead, if_pos hzero]
    exact hears rfl (endSession_follows ⟨trivial, .inl rfl⟩ rfl)
  · rw [seen, if_neg hzero, afterRead, if_neg hzero]
    exact hears rfl ⟨trivial, .inl rfl⟩

/-- **A step of `set_not_in_session`**, and what follows it. -/
theorem setNotInSession_follows {ending : Ending} {l : EndPc} (hcode : ending.Answers c.request)
    (hs : setNotInSession sh c ending l = some (sh', c', out)) :
    c'.Follows ((Pc.setNotInSession ending l).phase c) := by
  obtain ⟨-, hrequest, ⟨l', hpc⟩ | rfl⟩ := setNotInSession_flow hs
  · refine ⟨by rw [hpc]; trivial, .inl ?_⟩
    rw [hpc]
    cases ending <;> simp only [Pc.phase, hrequest]
  · cases ending with
    | disconnect | timeOut => exact ⟨trivial, .inl rfl⟩
    | finish =>
      have hcode : c.request.code = .finish := hcode
      exact (respond_answers (c := { c with clientAccount := none })
        (suits_of_head (by simp [answerCodes, hcode]) (by simp))).follows
    | exit =>
      have hcode : c.request.code = .exit := hcode
      exact (respond_answers (c := { c with clientAccount := none })
        (suits_of_code (by simp [answerCodes, hcode]) ResponseCode.noConfusion)).follows

/-- **The last answer to a request** ends it, and the answer to EXIT the dialogue. -/
theorem reply_follows (hformed : c.response.Suits c.request) : ∃ phase',
    (heard p (Output.seen p (.wrote c.response)).toList).foldlM Phase.next (.asked c.request) =
        some phase' ∧
      (c.goto (if c.request.code = .exit then .exited else .select)).Follows phase' := by
  have hnext : (Phase.asked c.request).next (.answered c.response) =
      some (if c.request.code = .exit then .ended else .idle) := by
    rw [Phase.next, if_neg hformed.ne_wait, if_pos hformed.code]
  refine hears hnext ?_
  split
  · exact ⟨trivial, .inl rfl⟩
  · exact ⟨trivial, .inl rfl⟩

/-- **The end after a time-out**, whether the word of it gets out or not. -/
theorem timedOut_follows (c : Client F) (written : ℤ) : ∃ phase',
    (heard p ((write timeOutAnswer written).seen p).toList).foldlM Phase.next .expired =
        some phase' ∧
      ({ c with pc := .exited, response := timeOutAnswer } : Client F).Follows phase' := by
  unfold write
  split
  · exact hears_nothing ⟨trivial, .inr ⟨rfl, rfl⟩⟩
  · refine hears (show Phase.next _ _ = some .ended from ?_) ⟨trivial, .inl rfl⟩
    simp only [Phase.next, if_true]

/-- **Every step follows the protocol.** -/
theorem client_follows {phase : Phase} (hA : Assertion p sh c) (htakes : c.pc.takes i = true)
    (hF : c.Follows phase) (hs : client p sh c i = some (sh', c', out)) : ∃ phase',
    (heard p (seen p i out).toList).foldlM Phase.next phase = some phase' ∧
      c'.Follows phase' := by
  have hholds := hA.holds
  have hformed := hF.formed
  have hphase : phase = c.pc.phase c := by
    refine hF.phase.resolve_right fun h => ?_
    rw [h.1] at htakes
    cases htakes
  have hseen {pc : Pc F} (hpc : c.pc = pc) (hselect : pc ≠ .select) (hlisten : pc ≠ .listen) :
      seen p i out = out.seen p :=
    seen_of_takes (hpc ▸ htakes) hselect hlisten
  subst hphase
  cases client_cases hs with
  | @select n hpc hi hsh hc hout =>
    rw [hi, hc, hout, hpc]
    exact select_follows c n
  | @listen n r hpc hi hsh hc hout =>
    rw [hi, hc, hout, hpc]
    exact listen_follows c n r
  | check hpc hs =>
    obtain ⟨hout, -, rfl | rfl⟩ := check_flow hs
    · rw [hseen hpc nofun nofun, hout, hpc]
      exact hears_nothing (inSession_answers c).follows
    · rw [hseen hpc nofun nofun, hout, hpc]
      exact hears_nothing (outOfSession_answers c).follows
  | clientOpen l hpc hs =>
    rw [hseen hpc nofun nofun, (clientOpen_flow hs).1, hpc]
    rw [hpc] at hholds hformed
    exact hears_nothing (clientOpen_answers hholds.1 hformed hs).follows
  | clientStart l hpc hs =>
    rw [hseen hpc nofun nofun, hpc]
    rw [hpc] at hholds hformed
    obtain ⟨hanswers, rfl | rfl⟩ := clientStart_answers hholds.1 hformed hs
    · exact hears_nothing hanswers.follows
    · refine hears (show Phase.next (.asked c.request) _ = some (.asked c.request) from ?_)
        hanswers.follows
      simp only [Phase.next, if_true, if_pos hholds.1]
  | clientDebit l hpc hs =>
    rw [hseen hpc nofun nofun, (clientDebit_flow hs).1, hpc]
    rw [hpc] at hholds
    exact hears_nothing (clientDebit_answers hholds.1 hs).follows
  | clientCredit l hpc hs =>
    rw [hseen hpc nofun nofun, (clientCredit_flow hs).1, hpc]
    rw [hpc] at hholds
    exact hears_nothing (clientCredit_answers hholds.1 hs).follows
  | balance l hpc hs =>
    rw [hseen hpc nofun nofun, (clientBalance_flow hs).1, hpc]
    rw [hpc] at hholds
    exact hears_nothing (clientBalance_answers hholds.1 hs).follows
  | setNotInSession ending l hpc hs =>
    rw [hseen hpc nofun nofun, (setNotInSession_flow hs).1, hpc]
    rw [hpc] at hholds
    exact hears_nothing (setNotInSession_follows hholds.1 hs)
  | retry hpc hsh hc hout =>
    rw [hseen hpc nofun nofun, hc, hout]
    exact hears_nothing ⟨hformed, .inl rfl⟩
  | answer hpc hsh hc hout =>
    rw [hseen hpc nofun nofun, hc, hout, hpc]
    rw [hpc] at hformed
    exact reply_follows hformed
  | @timeOut written r hpc hr hsh hc hout =>
    rw [hseen hpc nofun nofun, hc, hout, hr, hpc]
    exact timedOut_follows c written

/-! ### Every run -/

/-- What another process does is not heard. -/
private theorem heard_of_ne (h : q ≠ p) (i : Input) (out : Output) :
    heard q (seen p i out).toList = [] := by
  have hone (event : Seen) : heard q (some (p, event)).toList = [] := by
    simp [heard, h.symm]
  cases i with
  | select n =>
    simp only [seen]
    split
    · rfl
    · exact hone _
  | read n r => exact hone _
  | write | go =>
    cases out with
    | silent => rfl
    | wrote r => exact hone _

/-- **Every dialogue is in order.** In every run, whatever requests are received, and for every
process, what is seen on its connection follows the protocol, and it is as far as the point of the
code tells: nothing is unanswered at the top of the loop, and after the exit nothing follows. Only
a process that could not say that the time is over has exited with the dialogue at the time-out. -/
theorem dialogue_of_run (hr : Run (program sendable).machine (start sendable) tr s) (p : ℕ) :
    dialogue (heard p (observed seen tr)) = some ((s.locals p).pc.phase (s.locals p)) ∨
      ((s.locals p).pc = .exited ∧ dialogue (heard p (observed seen tr)) = some .expired) := by
  obtain ⟨phase, hdialogue, hF⟩ : ∃ phase, dialogue (heard p (observed seen tr)) = some phase ∧
      (s.locals p).Follows phase := by
    induction hr with
    | nil => exact ⟨.idle, rfl, trivial, .inl rfl⟩
    | @snoc tr e hr he ih =>
      obtain ⟨phase, hphase, hF⟩ := ih
      rw [observed_append, observed_singleton, heard_append, dialogue_append hphase]
      by_cases hp : p = e.op.1
      · subst hp
        exact client_follows ((invariant_of_run hr).2 _) he.legal.takes hF he.localStep
      · rw [he.locals_of_ne hp, heard_of_ne hp]
        exact ⟨phase, rfl, hF⟩
  rw [hdialogue]
  exact hF.phase.imp (congrArg some) fun h => ⟨h.1, congrArg some h.2⟩

/-- In the visit of two clients the second is still waiting for its session. -/
theorem dialogue_of_run_visit : dialogue (heard 1 (observed seen visit.1)) =
    some (.asked ⟨.start, ['a']⟩) := by
  have hpc : (visit.2.locals 1).pc.phase (visit.2.locals 1) = .asked ⟨.start, ['a']⟩ := by
    decide +kernel
  have hexited : (visit.2.locals 1).pc ≠ .exited := by decide +kernel
  rw [← hpc]
  exact (dialogue_of_run run_visit_named 1).resolve_right fun h => hexited h.1

end Cs214.MultithreadedBanking
