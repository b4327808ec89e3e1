import Cs214.MultithreadedBanking.Bytes
import Cs214.MultithreadedBanking.Dialogue

/-!
# The answers on the screen of the user

`form_response` fills in the `response_t` of a server process, a code in network order and a text
that the code may introduce, and the second thread of the client prints what it reads
(`responseSubroutine`). What is filled in is what is read (`decode_formResponse`), and as the
answers follow the protocol of the dialogue, a thread that reads whole answers prints all of them,
in order, and stops exactly at the answer to EXIT (`screen_of_run`).
-/

namespace Cs214.MultithreadedBanking

open Tokenizer (CString nul)

/-! ### The bytes of a response -/

/-- `sizeof(response_t)`: the code and the 300 characters of the message. -/
def sizeofResponse : ℕ := 304

/-- The bytes of a `response_t`. -/
@[ext] structure ResponseT where
  bytes : List UInt8
  size : bytes.length = sizeofResponse

/-- The integer of a code. -/
def ResponseCode.toInt : ResponseCode → ℤ
  | .success => 0
  | .cannotOpen => 1
  | .cannotStart => 2
  | .clientNotInSession => 3
  | .accountUnfound => 4
  | .balanceReachZero => 5
  | .connectionTimeOut => 6
  | .accountExit => 7

private theorem ResponseCode.isInt32_toInt (code : ResponseCode) : IsInt32 code.toInt := by
  cases code <;> exact ⟨by decide, by decide⟩

private theorem ResponseCode.toInt_injective : Function.Injective ResponseCode.toInt := by
  intro code code' h
  cases code <;> cases code' <;> first | rfl | cases h

variable {r r' old buffer b : ResponseT} {code : ResponseCode} {text text' message : CString}

namespace ResponseT

/-- `response.code = ntohl(response.code)` in the memory of a little-endian host. -/
def ntohl (r : ResponseT) : ResponseT :=
  ⟨(r.bytes.take 4).reverse ++ r.bytes.drop 4, by simp [r.size, sizeofResponse]⟩

/-- What `read` leaves in the buffer: the bytes it returns, and behind them the old ones. -/
def read (r : ResponseT) (data : { data : List UInt8 // data.length ≤ sizeofResponse }) :
    ResponseT :=
  ⟨data.val ++ r.bytes.drop data.val.length, by
    have h := data.property
    rw [List.length_append, List.length_drop, r.size]
    omega⟩

/-- The code and the message, as the thread of the client sees them. -/
def decode (r : ResponseT) : ℤ × CString :=
  (littleEndian (r.bytes.take 4), (fieldText 0 (r.bytes.drop 4)).map fun b => Char.ofNat b.toNat)

/-- `response->code = htonl(code)`. -/
def setCode (r : ResponseT) (code : ResponseCode) : ResponseT :=
  ⟨overwrite r.bytes 0 (intBytes code.toInt).reverse, by
    rw [length_overwrite, r.size]
    rw [List.length_reverse, intBytes_length, r.size]
    decide⟩

/-- Store a text with its NUL, none being an overflow of the message. -/
def store (r : ResponseT) (i : ℕ) (text : CString) : Option ResponseT :=
  if h : i + text.length + 1 ≤ sizeofResponse then
    some ⟨overwrite r.bytes i (textBytes text ++ [0]), by
      rw [length_overwrite, r.size]
      rw [List.length_append, textBytes_length, List.length_singleton, r.size]
      omega⟩
  else none

/-- `strcpy(response->message, text)`. -/
def strcpy (r : ResponseT) (text : CString) : Option ResponseT := r.store 4 text

/-- `strcat(response->message, text)`. -/
def strcat (r : ResponseT) (text : CString) : Option ResponseT :=
  r.store (4 + (fieldText 0 (r.bytes.drop 4)).length) text

/-- **`form_response`** in the memory of the server. -/
def formResponse (r : ResponseT) (code : ResponseCode) (message : CString) : Option ResponseT :=
  match code with
  | .success | .accountExit => (r.setCode code).strcpy message
  | .cannotOpen =>
    ((r.setCode code).strcpy "Cannot open the account: ".toList).bind fun r => r.strcat message
  | .cannotStart =>
    ((r.setCode code).strcpy "Cannot start the session: ".toList).bind fun r => r.strcat message
  | .clientNotInSession =>
    (r.setCode code).strcpy "Please start an account session with start: ".toList
  | .accountUnfound =>
    ((r.setCode code).strcpy "Cannot find account named : ".toList).bind fun r => r.strcat message
  | .balanceReachZero =>
    ((r.setCode code).strcpy "Failed to credit: ".toList).bind fun r => r.strcat message
  | .connectionTimeOut =>
    (r.setCode code).strcpy "Account timed out. Restart your banking applicatio. ".toList

private theorem four_le (r : ResponseT) : 4 ≤ r.bytes.length := by
  rw [r.size]
  decide

/-- **What a store leaves**, if the text fits. -/
theorem store_eq_some_iff {i : ℕ} : r.store i text = some r' ↔
    i + text.length + 1 ≤ sizeofResponse ∧
      r'.bytes = overwrite r.bytes i (textBytes text ++ [0]) := by
  unfold store
  split
  · rename_i hfit
    rw [Option.some_inj, ResponseT.ext_iff, eq_comm, and_iff_right hfit]
  · rename_i hfit
    exact iff_of_false nofun fun h => hfit h.1

/-- A text is read from the message as it was stored. -/
private theorem fieldText_strcpy (h : r.strcpy text = some r') (htext : IsBytes text) :
    fieldText 0 (r'.bytes.drop 4) = textBytes text := by
  obtain ⟨hfit, hbytes⟩ := store_eq_some_iff.mp h
  have hlength : r'.bytes.drop 4 = (r'.bytes.drop 4).take sizeofResponse := by
    rw [List.take_of_length_le]
    rw [List.length_drop, r'.size]
    omega
  rw [hlength, hbytes]
  exact text_overwrite (zero_notMem_textBytes htext) r.four_le (by rw [textBytes_length]; omega)

/-- **`strcat` behind `strcpy`** is one `strcpy` of both texts. -/
theorem strcat_strcpy (htext : IsBytes text)
    (h : (r.strcpy text).bind (fun r => r.strcat text') = some r') :
    r.strcpy (text ++ text') = some r' := by
  obtain ⟨old, h, h'⟩ := Option.bind_eq_some_iff.mp h
  have hfield := fieldText_strcpy h htext
  obtain ⟨hfit, hbytes⟩ := store_eq_some_iff.mp h
  rw [strcat, hfield, textBytes_length] at h'
  obtain ⟨hfit', hbytes'⟩ := store_eq_some_iff.mp h'
  have hboth : 4 + (text ++ text').length + 1 ≤ sizeofResponse := by
    rw [List.length_append]
    omega
  refine store_eq_some_iff.mpr ⟨hboth, ?_⟩
  rw [hbytes', hbytes, ← textBytes_length text, textBytes_append, overwrite_text_append]
  rw [textBytes_length, r.size]
  omega

/-- A text over one that is not longer. -/
private theorem strcpy_strcpy (hle : text.length ≤ text'.length)
    (h : (r.strcpy text).bind (fun r => r.strcpy text') = some r') : r.strcpy text' = some r' := by
  obtain ⟨old, h, h'⟩ := Option.bind_eq_some_iff.mp h
  obtain ⟨-, hbytes⟩ := store_eq_some_iff.mp h
  obtain ⟨hfit', hbytes'⟩ := store_eq_some_iff.mp h'
  refine store_eq_some_iff.mpr ⟨hfit', ?_⟩
  rw [hbytes', hbytes, overwrite_overwrite _ r.four_le]
  simp only [List.length_append, textBytes_length]
  omega

/-- **`form_response`** is one text behind one code. -/
theorem formResponse_eq (h : old.formResponse code message = some r) :
    (old.setCode code).strcpy (MultithreadedBanking.formResponse code message).message =
      some r := by
  cases code with
  | success | accountExit | clientNotInSession | connectionTimeOut => exact h
  | cannotOpen | cannotStart | accountUnfound | balanceReachZero =>
    exact strcat_strcpy (by decide +kernel) h

/-- What the thread of the client makes of a buffer in network order. -/
private theorem decode_ntohl (r : ResponseT) : r.ntohl.decode =
    (littleEndian (r.bytes.take 4).reverse,
      (fieldText 0 (r.bytes.drop 4)).map fun b => Char.ofNat b.toNat) := by
  have hfour : (r.bytes.take 4).reverse.length = 4 := by simp [r.size, sizeofResponse]
  simp only [decode, ntohl, List.take_left' hfour, List.drop_left' hfour]

end ResponseT

/-- A message of bytes, whatever the code puts in front of it. -/
private theorem isBytes_formResponse (hmessage : IsBytes message) :
    IsBytes (formResponse code message).message := by
  have happend {intro : CString} (hintro : IsBytes intro) : IsBytes (intro ++ message) :=
    fun c hc => (List.mem_append.mp hc).elim (hintro c) (hmessage c)
  cases code with
  | success | accountExit => exact hmessage
  | cannotOpen | cannotStart | accountUnfound | balanceReachZero =>
    exact happend (by decide +kernel)
  | clientNotInSession | connectionTimeOut =>
    simp only [formResponse]
    decide +kernel

/-- **The client reads what was filled in**, whatever the buffer of the server held before. -/
theorem decode_formResponse (hmessage : IsBytes message)
    (h : old.formResponse code message = some buffer) :
    buffer.ntohl.decode = (code.toInt, (formResponse code message).message) := by
  have hstrcpy := ResponseT.formResponse_eq h
  have htext : IsBytes (formResponse code message).message := isBytes_formResponse hmessage
  obtain ⟨-, hbytes⟩ := ResponseT.store_eq_some_iff.mp hstrcpy
  have hcode : ((old.setCode code).bytes.drop 0).take (intBytes code.toInt).reverse.length =
      (intBytes code.toInt).reverse := take_drop_overwrite (Nat.zero_le _)
  have htake : buffer.bytes.take 4 = (old.setCode code).bytes.take 4 := by
    rw [hbytes]
    exact take_overwrite le_rfl (old.setCode code).four_le
  rw [List.length_reverse, intBytes_length, List.drop_zero, ← htake] at hcode
  rw [ResponseT.decode_ntohl, hcode, List.reverse_reverse,
    littleEndian_intBytes code.isInt32_toInt, ResponseT.fieldText_strcpy hstrcpy htext,
    map_textBytes htext]

/-! ### The thread of the client -/

/-- What `select` and `read` give the thread; `ready` with no bytes is the end of the connection. -/
inductive Listened
  | ready (data : { data : List UInt8 // data.length ≤ sizeofResponse })
  /-- `read` fails: the buffer stays as it is. -/
  | broken
  | timeOut
  | failed

/-- The status the thread exits with. -/
inductive ExitStatus
  | success
  | failure
  deriving DecidableEq, Repr

/-- What the thread has printed, and its status if it has exited. -/
structure Screen where
  printed : CString
  status : Option ExitStatus
  deriving DecidableEq, Repr

/-- Text printed before. -/
def Screen.after (screen : Screen) (text : CString) : Screen :=
  { screen with printed := text ++ screen.printed }

/-- What is printed of a response. -/
def printResponse (code : ℤ) (message : CString) : CString :=
  (if code ≠ ResponseCode.success.toInt ∧ code ≠ ResponseCode.accountExit.toInt then
    "Error: ".toList else []) ++ message ++ ['\n']

/-- What the thread does with the response in its buffer, and what it does after it. -/
def showResponse (response : ResponseT) (rest : Screen) : Screen :=
  let (code, message) := response.decode
  if code = ResponseCode.accountExit.toInt then ⟨printResponse code message, some .success⟩
  else rest.after (printResponse code message)

def closedText : CString := "Connection from the server is closed unexpectedly.\n".toList

def timeOutText : CString := "\nConnection time out. Stop listening to the server.\n".toList

/-- **`response_subroutine`**, by what `select` and `read` give it. -/
def responseSubroutine (response : ResponseT) : List Listened → Screen
  | [] => ⟨[], none⟩
  | .ready data :: rest =>
    let response := (response.read data).ntohl
    if data.val.length = 0 then ⟨closedText, some .success⟩
    else showResponse response (responseSubroutine response rest)
  | .broken :: rest =>
    let response := response.ntohl
    showResponse response (responseSubroutine response rest)
  | .timeOut :: _ => ⟨timeOutText, some .failure⟩
  | .failed :: _ => ⟨[], some .success⟩

/-- A response that is read at once. -/
def wholeResponse (b : ResponseT) : Listened := .ready ⟨b.bytes, b.size.le⟩

/-- **The bytes of an answer**: what `form_response` makes of a buffer with anything in it. -/
def Response.Fills (a : Response) (b : ResponseT) : Prop :=
  ∃ (old : ResponseT) (code : ResponseCode) (message : CString), IsBytes message ∧
    a = formResponse code message ∧ old.formResponse code message = some b

/-- The case `BALANCE` formats its text into the message of an empty response. -/
theorem fills_balance (htext : IsBytes text)
    (h : ((old.formResponse .success []).bind fun r => r.strcpy text) = some b) :
    (formResponse .success text).Fills b :=
  ⟨old, .success, text, htext, rfl, ResponseT.strcpy_strcpy (Nat.zero_le _) h⟩

/-- The line of an answer on the screen. -/
def Response.line (a : Response) : CString :=
  (if a.code = .success ∨ a.code = .accountExit then [] else "Error: ".toList) ++ a.message ++
    ['\n']

variable {a : Response} {as : List Response} {bs : List ResponseT} {rest : Screen}

private theorem printResponse_toInt (a : Response) :
    printResponse a.code.toInt a.message = a.line := by
  simp only [printResponse, Response.line, ResponseCode.toInt_injective.ne_iff, ← not_or,
    ite_not]

/-- The whole answer is in the buffer. -/
private theorem read_whole (response b : ResponseT) : response.read ⟨b.bytes, b.size.le⟩ = b := by
  refine ResponseT.ext ?_
  change b.bytes ++ response.bytes.drop b.bytes.length = b.bytes
  rw [List.drop_of_length_le (by rw [response.size, b.size]), List.append_nil]

private theorem responseSubroutine_whole (response b : ResponseT) (inputs : List Listened) :
    responseSubroutine response (wholeResponse b :: inputs) =
      showResponse b.ntohl (responseSubroutine b.ntohl inputs) := by
  have hsize : b.bytes.length ≠ 0 := by
    rw [b.size]
    decide
  rw [wholeResponse, responseSubroutine, if_neg hsize, read_whole]

/-- **One answer**: the thread prints its line, and stops at the answer to EXIT. -/
theorem showResponse_fills (h : a.Fills b) (rest : Screen) : showResponse b.ntohl rest =
    if a.code = .accountExit then ⟨a.line, some .success⟩ else rest.after a.line := by
  obtain ⟨old, code, message, hmessage, rfl, hform⟩ := h
  rw [showResponse, decode_formResponse hmessage hform]
  simp only [ResponseCode.toInt_injective.eq_iff]
  rw [← printResponse_toInt]
  rfl

/-- **All answers**, if none stands behind the answer to EXIT. -/
theorem responseSubroutine_answers (hexit : ∀ a ∈ as.dropLast, a.code ≠ .accountExit)
    (hfills : List.Forall₂ Response.Fills as bs) (buffer : ResponseT) (inputs : List Listened) :
    ∃ response, responseSubroutine buffer (bs.map wholeResponse ++ inputs) =
      if ∃ a ∈ as, a.code = .accountExit then ⟨as.flatMap Response.line, some .success⟩
      else (responseSubroutine response inputs).after (as.flatMap Response.line) := by
  induction hfills generalizing buffer with
  | nil => exact ⟨buffer, by simp [Screen.after]⟩
  | @cons a b as bs hfill hfills ih =>
    rw [List.map_cons, List.cons_append, responseSubroutine_whole, showResponse_fills hfill]
    by_cases hcode : a.code = .accountExit
    · -- this is the last answer
      have has : as = [] := by
        by_contra hne
        rw [List.dropLast_cons_of_ne_nil hne] at hexit
        exact hexit a List.mem_cons_self hcode
      subst has
      exact ⟨buffer, by simp [hcode]⟩
    · have hexit' : ∀ a ∈ as.dropLast, a.code ≠ .accountExit := by
        intro a' ha'
        have hne : as ≠ [] := by
          rintro rfl
          cases ha'
        rw [List.dropLast_cons_of_ne_nil hne] at hexit
        exact hexit a' (List.mem_cons_of_mem _ ha')
      obtain ⟨response, hresponse⟩ := ih hexit' b.ntohl
      refine ⟨response, ?_⟩
      rw [if_neg hcode, hresponse]
      simp only [List.exists_mem_cons_iff, hcode, false_or, List.flatMap_cons]
      split_ifs
      · rfl
      · simp only [Screen.after, List.append_assoc]

/-! ### The answers of a run -/

/-- The answer in an event. -/
def Seen.answer? : Seen → Option Response
  | .answered a => some a
  | _ => none

private theorem Seen.eq_answered {event : Seen} (h : event.answer? = some a) :
    event = .answered a := by
  cases event with
  | answered => exact congrArg Seen.answered (Option.some.inj h)
  | received | closed | timedOut | failed => cases h

/-- The answers in a dialogue. -/
def answers (events : List Seen) : List Response := events.filterMap Seen.answer?

private theorem answers_concat (events : List Seen) (event : Seen) :
    answers (events ++ [event]) = answers events ++ event.answer?.toList := by
  rw [answers, List.filterMap_append]
  cases event <;> rfl

private theorem exit_of_accountExit {r : Request} (h : .accountExit ∈ answerCodes r) :
    r.code = .exit := by
  unfold answerCodes at h
  rcases hcode : r.code <;> rw [hcode] at h
  all_goals simp at h

/-- Only an answer to EXIT has its code, and it ends the dialogue. -/
private theorem next_accountExit {phase phase' : Phase} (h : phase.next (.answered a) = some phase')
    (hcode : a.code = .accountExit) : phase' = .ended := by
  cases phase with
  | asked r =>
    simp only [Phase.next] at h
    have hwait : a ≠ waitAnswer := by
      rintro rfl
      cases hcode
    rw [if_neg hwait] at h
    by_cases hmem : a.code ∈ answerCodes r
    · rw [if_pos hmem, if_pos (exit_of_accountExit (hcode ▸ hmem))] at h
      exact (Option.some.inj h).symm
    · rw [if_neg hmem] at h
      cases h
  | expired =>
    simp only [Phase.next] at h
    split_ifs at h
    exact (Option.some.inj h).symm
  | idle | ended => cases h

/-- **The answer to EXIT is the last one.** -/
theorem accountExit_last {events : List Seen} {phase : Phase} (h : dialogue events = some phase) :
    (∀ a ∈ (answers events).dropLast, a.code ≠ .accountExit) ∧
      ((∃ a ∈ answers events, a.code = .accountExit) → phase = .ended) := by
  induction events using List.reverseRecOn generalizing phase with
  | nil => exact ⟨nofun, nofun⟩
  | append_singleton events event ih =>
    obtain ⟨phase₀, h₀, hnext⟩ : ∃ phase₀, dialogue events = some phase₀ ∧
        phase₀.next event = some phase := by
      rw [dialogue, List.foldlM_append, Option.bind_eq_bind, Option.bind_eq_some_iff] at h
      simpa [dialogue] using h
    obtain ⟨hlast, hended⟩ := ih h₀
    have hnone (hne : phase₀ ≠ .ended) : ∀ a ∈ answers events, a.code ≠ .accountExit :=
      fun a ha hcode => hne (hended ⟨a, ha, hcode⟩)
    have hbefore : phase₀ ≠ .ended := by
      rintro rfl
      cases event <;> cases hnext
    rw [answers_concat]
    rcases hevent : event.answer? with _ | a
    · rw [Option.toList_none, List.append_nil]
      exact ⟨hlast, fun h => absurd (hended h) hbefore⟩
    · obtain rfl := Seen.eq_answered hevent
      refine ⟨?_, ?_⟩
      · rw [Option.toList_some, List.dropLast_concat]
        exact hnone hbefore
      · rintro ⟨a', ha', hcode⟩
        rcases List.mem_append.mp ha' with ha' | ha'
        · exact absurd hcode (hnone hbefore a' ha')
        · obtain rfl := List.mem_singleton.mp ha'
          exact next_accountExit hnext hcode

variable {F : Type} [Arithmetic F] {sendable : Request → Prop} {tr : List (Step F)}
  {s : Configuration ℕ (ServerSession F) (Client F)}

/-- The answers that a process has given. -/
def answersTo (p : ℕ) (tr : List (Step F)) : List Response := answers (heard p (observed seen tr))

/-- **The screen of the user.** In every run of the server, whatever requests it receives, and for
every client: let the answers that were written to it so far be filled in by `form_response` over
anything, and let each `read` of the thread return a whole one. Then the thread prints the lines
of all of them, in order. It exits if the last one is the answer to EXIT, and else goes on with
what `select` and `read` give next. -/
theorem screen_of_run (hr : Run (program sendable).machine (start sendable) tr s) (p : ℕ)
    (hfills : List.Forall₂ Response.Fills (answersTo p tr) bs) (buffer : ResponseT)
    (inputs : List Listened) :
    ∃ response, responseSubroutine buffer (bs.map wholeResponse ++ inputs) =
      if ∃ a ∈ answersTo p tr, a.code = .accountExit then
        ⟨(answersTo p tr).flatMap Response.line, some .success⟩
      else (responseSubroutine response inputs).after
        ((answersTo p tr).flatMap Response.line) := by
  obtain ⟨phase, hdialogue⟩ : ∃ phase, dialogue (heard p (observed seen tr)) = some phase :=
    (dialogue_of_run hr p).elim (fun h => ⟨_, h⟩) fun h => ⟨_, h.2⟩
  exact responseSubroutine_answers (accountExit_last hdialogue).1 hfills buffer inputs

def blankResponse : ResponseT := ⟨List.replicate sizeofResponse 0, List.length_replicate ..⟩

/-- The bytes of the word to wait. -/
def waitingResponse : ResponseT :=
  ⟨overwrite (List.replicate sizeofResponse 0) 4 (textBytes waitAnswer.message), by decide +kernel⟩

private theorem waitAnswer_fills : waitAnswer.Fills waitingResponse := by
  have hstore : (blankResponse.setCode .success).store 4 waitAnswer.message =
      some waitingResponse :=
    ResponseT.store_eq_some_iff.mpr ⟨by decide +kernel, by decide +kernel⟩
  exact ⟨blankResponse, .success, waitAnswer.message, by decide +kernel, rfl, hstore⟩

/-- The second client of the visit has been told twice to wait, and then stops to listen. -/
theorem screen_of_run_visit : responseSubroutine blankResponse
    ([waitingResponse, waitingResponse].map wholeResponse ++ [.timeOut]) =
      ⟨waitAnswer.line ++ waitAnswer.line ++ timeOutText, some .failure⟩ := by
  have hanswers : answersTo 1 visit.1 = [waitAnswer, waitAnswer] := by decide +kernel
  have hfills : List.Forall₂ Response.Fills (answersTo 1 visit.1)
      [waitingResponse, waitingResponse] := by
    rw [hanswers]
    exact .cons waitAnswer_fills (.cons waitAnswer_fills .nil)
  obtain ⟨response, hresponse⟩ :=
    screen_of_run run_visit_named 1 hfills blankResponse [.timeOut]
  rw [hresponse, hanswers, if_neg (by simp [waitAnswer, formResponse])]
  rfl

end Cs214.MultithreadedBanking
