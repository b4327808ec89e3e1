import Cs214.MultithreadedBanking.Request

/-!
# The loop of the client

`commandLoop` is the loop of `command_subroutine` over the lines of the user. What a line says is
read off its tokens alone (`commandAt`): a command with its argument, and the tokens behind it.
A line is accepted if nothing stands behind its command.

The loop stops when the request it keeps is an `EXIT`. That request is filled in by any line that
starts with a command, accepted or not, and before the first such line it is whatever the stack
held, so the loop may stop without an exit having been sent (`commandLoop_iff`). The same function
copies the argument of a command into the request, and it is the argument of `credit` and `debit`
only that may be too long for its field (`copies_fit_iff`).
-/

namespace Cs214.MultithreadedBanking

open Tokenizer

variable {request r : Request} {code : RequestCode} {line : CString} {lines : List CString}
  {tk : TokenizerT} {n : ℕ} {command : Command} {text other : CString}

/-! ### What a line says -/

/-- A token with its type. -/
abbrev Token := CString × TokenT

variable {l rest : List Token}

/-- The tokens of a line. -/
def lineTokens (line : CString) : List Token := (tokens banking line).getD []

/-- A command with a name that fits. -/
def nameCommand (code : RequestCode) : List Token → Option (Request × List Token)
  | (token, _) :: rest =>
    if token.length ≤ nameMaxLength - 1 then some (⟨code, token⟩, rest) else none
  | [] => none

/-- A command with an amount. -/
def amountCommand (code : RequestCode) : List Token → Option (Request × List Token)
  | (token, type) :: rest =>
    if type = .float ∨ type = .dec then some (⟨code, token⟩, rest) else none
  | [] => none

/-- **The command** that some tokens start with, and the tokens behind it. -/
def commandAt : List Token → Option (Request × List Token)
  | [] => none
  | (word, _) :: rest =>
    if word = "open".toList then nameCommand .open_ rest
    else if word = "start".toList then nameCommand .start rest
    else if word = "credit".toList then amountCommand .credit rest
    else if word = "debit".toList then amountCommand .debit rest
    else if word = "balance".toList then some (⟨.balance, []⟩, rest)
    else if word = "finish".toList then some (⟨.finish, []⟩, rest)
    else if word = "exit".toList then some (⟨.exit, []⟩, rest)
    else none

/-- **The request of a line** that is accepted: one command and no further token. -/
def accepted (line : CString) : Option Request :=
  match commandAt (lineTokens line) with
  | some (r, []) => some r
  | _ => none

/-- The code of the request behind a line. -/
def codeAfter (code : RequestCode) (line : CString) : RequestCode :=
  ((commandAt (lineTokens line)).map fun c => c.1.code).getD code

/-- The codes whose requests have a text. -/
def RequestCode.hasText : RequestCode → Bool
  | .open_ | .start | .credit | .debit => true
  | _ => false

/-- What a request says: its code, and its text if the code has one. -/
def Request.said (r : Request) : Request := if r.code.hasText then r else ⟨r.code, []⟩

@[simp] theorem Request.said_code (r : Request) : r.said.code = r.code := by
  unfold Request.said
  split_ifs <;> rfl

theorem said_setRequest (request : Request) (code : RequestCode) (text : CString) :
    (setRequest request code text).said = ⟨code, if code.hasText then text else []⟩ := by
  cases code <;> rfl

/-! ### What the client makes of a line -/

/-- **What the client knows of a command**: it is valid, with the request it says and the tokens
behind it to come, or it leaves the request as it was. -/
inductive Follows (request : Request) : Option (Request × List Token) → Command → Prop
  | valid {command : Command} {r : Request} {rest : List Token} {n : ℕ}
      (hvalid : command.validCommand = true) (hrequest : command.request.said = r)
      (hrest : tokensFrom banking n command.tk = some rest) :
      Follows request (some (r, rest)) command
  | invalid {command : Command} (hvalid : command.validCommand = false)
      (hrequest : command.request = request) : Follows request none command

private theorem nameArgument_spec (htext : code.hasText = true)
    (h : tokensFrom banking n tk = some l) :
    ∃ command, nameArgument request code other tk = some command ∧
      Follows request (nameCommand code l) command := by
  obtain ⟨m, -, ⟨tk', hnext, rfl⟩ | ⟨tk', token, rest, hnext, rfl, hrest⟩⟩ := tokensFrom_cases h
  · exact ⟨⟨tk', request, false, other⟩, by rw [nameArgument, hnext]; rfl, .invalid rfl rfl⟩
  · have heq : nameArgument request code other tk = if token.length ≤ nameMaxLength - 1 then
        some ⟨tk', setRequest request code token, true, []⟩
        else some ⟨tk', request, false, "The name length is invalid.\n".toList⟩ := by
      rw [nameArgument, hnext]
      rfl
    rw [heq, nameCommand]
    split_ifs
    · exact ⟨_, rfl, .valid rfl (by rw [said_setRequest, if_pos htext]) hrest⟩
    · exact ⟨_, rfl, .invalid rfl rfl⟩

private theorem amountArgument_spec (htext : code.hasText = true)
    (h : tokensFrom banking n tk = some l) :
    ∃ command, amountArgument request code other tk = some command ∧
      Follows request (amountCommand code l) command := by
  obtain ⟨m, -, ⟨tk', hnext, rfl⟩ | ⟨tk', token, rest, hnext, rfl, hrest⟩⟩ := tokensFrom_cases h
  · exact ⟨⟨tk', request, false, invalidCmd ++ ['\n']⟩, by rw [amountArgument, hnext]; rfl,
      .invalid rfl rfl⟩
  · have heq : amountArgument request code other tk =
        if tkGetType tk' = .float ∨ tkGetType tk' = .dec then
          some ⟨tk', setRequest request code token, true, []⟩
        else some ⟨tk', request, false, other⟩ := by
      rw [amountArgument, hnext]
      rfl
    rw [heq, amountCommand]
    split_ifs
    · exact ⟨_, rfl, .valid rfl (by rw [said_setRequest, if_pos htext]) hrest⟩
    · exact ⟨_, rfl, .invalid rfl rfl⟩

/-- The command of a line, by its first token. -/
def firstCommand (request : Request) (line : CString) : Option Command := do
  let (tk, token) ← tkGetNextToken banking (tkCreate banking line)
  commandOf request tk token

/-- **The command of a line** is the one its tokens start with. -/
theorem firstCommand_spec (request : Request) (line : CString) :
    ∃ command, firstCommand request line = some command ∧
      Follows request (commandAt (lineTokens line)) command := by
  obtain ⟨l, hl, -⟩ := tokens_spec total_banking line
  rw [lineTokens, hl, Option.getD_some]
  obtain ⟨m, -, ⟨tk, hnext, rfl⟩ | ⟨tk, word, rest, hnext, rfl, hrest⟩⟩ := tokensFrom_cases hl
  · exact ⟨⟨tk, request, false, []⟩, by rw [firstCommand, hnext]; rfl, .invalid rfl rfl⟩
  · have heq : firstCommand request line = commandOf request tk (some word) := by
      rw [firstCommand, hnext]
      rfl
    rw [heq, commandOf, commandAt]
    split_ifs
    case pos | pos => exact nameArgument_spec rfl hrest
    case pos | pos => exact amountArgument_spec rfl hrest
    case pos | pos | pos => exact ⟨_, rfl, .valid rfl rfl hrest⟩
    case pos | neg => exact ⟨_, rfl, .invalid rfl rfl⟩

/-- What the client does when it has the command of a line. -/
def finishLine (command : Command) : Option LineResult := do
  let stop : Bool := command.request.code = .exit
  let tail := if stop then [] else prompt
  if command.validCommand then
    let (_, token) ← tkGetNextToken banking command.tk
    match token with
    | some _ =>
      return ⟨command.request, none, command.printed ++ "Invalid command.\n".toList ++ tail, stop⟩
    | none => return ⟨command.request, some command.request, command.printed ++ tail, stop⟩
  else
    return ⟨command.request, none, command.printed ++ tail, stop⟩

private theorem commandSubroutine_eq (request : Request) (line : CString) :
    commandSubroutine request line = (firstCommand request line).bind finishLine := by
  rw [commandSubroutine, firstCommand]
  cases tkGetNextToken banking (tkCreate banking line) with
  | none => rfl
  | some _ => rfl

/-- **What the client does with a line**: it writes the request of an accepted line, and stops if
the request it then keeps is an exit. -/
theorem commandSubroutine_spec (request : Request) (line : CString) :
    ∃ result, commandSubroutine request line = some result ∧
      result.written.map Request.said = accepted line ∧
      result.request.code = codeAfter request.code line ∧
      result.stop = decide (codeAfter request.code line = .exit) := by
  obtain ⟨command, hcommand, hfollows⟩ := firstCommand_spec request line
  rw [commandSubroutine_eq, hcommand, Option.bind_some, accepted, codeAfter, finishLine]
  cases hat : commandAt (lineTokens line) with
  | none =>
    rw [hat] at hfollows
    cases hfollows with
    | invalid hvalid hrequest =>
      rw [hvalid]
      exact ⟨_, rfl, rfl, by rw [hrequest]; rfl, by simp [hrequest]⟩
  | some c =>
    rw [hat] at hfollows
    cases hfollows with
    | valid hvalid hrequest hrest =>
      rw [hvalid]
      obtain ⟨m, -, ⟨tk', hnext, rfl⟩ | ⟨tk', token, rest, hnext, rfl, -⟩⟩ :=
        tokensFrom_cases hrest
      · rw [hnext]
        exact ⟨_, rfl, by simp [hrequest], by simp [← hrequest], by simp [← hrequest]⟩
      · rw [hnext]
        exact ⟨_, rfl, rfl, by simp [← hrequest], by simp [← hrequest]⟩

/-! ### The lines of the user -/

/-- What the loop of the client leaves: the requests it has written, what it has printed behind
the first prompt, whether it stopped by itself, and the lines it has not read. -/
structure ClientRun where
  written : List Request
  printed : CString
  stopped : Bool
  unread : List CString
  deriving DecidableEq

/-- **The loop of the client** over the lines that `fgets` reads. -/
def commandLoop (request : Request) : List CString → Option ClientRun
  | [] => some ⟨[], [], false, []⟩
  | line :: lines => do
    let result ← commandSubroutine request line
    if result.stop then
      some ⟨result.written.toList, result.printed, true, lines⟩
    else do
      let run ← commandLoop result.request lines
      some { run with
        written := result.written.toList ++ run.written
        printed := result.printed ++ run.printed }

/-- An exit that is accepted. -/
def acceptedExit (line : CString) : Bool := (accepted line).any fun r => r.code = .exit

/-- The lines up to the first accepted exit. -/
def upToExit : List CString → List CString
  | [] => []
  | line :: lines => if acceptedExit line then [line] else line :: upToExit lines

/-- **The loop stops by an exit**: it reads the lines up to the first accepted exit, writes the
requests of those that are accepted, and stops by itself only behind an exit. -/
structure StopsByExit (lines : List CString) (run : ClientRun) : Prop where
  written : run.written.map Request.said = (upToExit lines).filterMap accepted
  read : lines = upToExit lines ++ run.unread
  stopped : run.stopped = true ↔ ∃ line ∈ upToExit lines, acceptedExit line = true

/-- **No stray exit**: no line up to the first accepted exit has an exit with something behind
it, and if the request starts as an exit then the first line overwrites it. -/
structure NoStrayExit (code : RequestCode) (lines : List CString) : Prop where
  alone : ∀ line ∈ upToExit lines, ∀ r rest, commandAt (lineTokens line) = some (r, rest) →
    r.code = .exit → rest = []
  first : code = .exit → ∀ line, lines.head? = some line → commandAt (lineTokens line) ≠ none

private theorem acceptedExit_iff : acceptedExit line = true ↔
    ∃ r, commandAt (lineTokens line) = some (r, []) ∧ r.code = .exit := by
  rw [acceptedExit, accepted]
  split
  · rename_i r heq
    simp [heq]
  · rename_i hne
    refine iff_of_false (by simp) ?_
    rintro ⟨r, heq, -⟩
    exact hne r heq

private theorem upToExit_cons_of_not (h : acceptedExit line = false) (lines : List CString) :
    upToExit (line :: lines) = line :: upToExit lines := by
  rw [upToExit, if_neg (by simp [h])]

private theorem mem_upToExit_head (line : CString) (lines : List CString) :
    line ∈ upToExit (line :: lines) := by
  rw [upToExit]
  split_ifs <;> simp

/-- Behind an accepted exit the code of the request is an exit. -/
theorem codeAfter_of_acceptedExit (h : acceptedExit line = true) : codeAfter code line = .exit := by
  obtain ⟨r, hat, hr⟩ := acceptedExit_iff.mp h
  rw [codeAfter, hat, Option.map_some, Option.getD_some, hr]

/-- A line that leaves an exit in the request is an accepted exit if there is no stray one. -/
private theorem NoStrayExit.accepted_of_exit (h : NoStrayExit code (line :: lines))
    (hcode : codeAfter code line = .exit) : acceptedExit line = true := by
  rw [codeAfter] at hcode
  cases hat : commandAt (lineTokens line) with
  | none =>
    rw [hat] at hcode
    exact absurd hat (h.first hcode line rfl)
  | some c =>
    obtain ⟨r, rest⟩ := c
    rw [hat] at hcode
    obtain rfl := h.alone line (mem_upToExit_head line lines) r rest hat hcode
    exact acceptedExit_iff.mpr ⟨r, hat, hcode⟩

/-- Up to an accepted exit on the first line there is no stray one. -/
private theorem noStrayExit_of_acceptedExit (h : acceptedExit line = true) :
    NoStrayExit code (line :: lines) := by
  obtain ⟨r, hat, -⟩ := acceptedExit_iff.mp h
  refine ⟨fun line' hline' r' rest hat' _ => ?_, fun _ line' hline' => ?_⟩
  · rw [upToExit, if_pos h, List.mem_singleton] at hline'
    rw [hline', hat] at hat'
    exact (congrArg Prod.snd (Option.some.inj hat')).symm
  · obtain rfl := Option.some.inj hline'
    rw [hat]
    exact Option.some_ne_none _

/-- A line that leaves no exit in the request is not the matter. -/
private theorem noStrayExit_cons_iff (hcode : codeAfter code line ≠ .exit) :
    NoStrayExit code (line :: lines) ↔ NoStrayExit (codeAfter code line) lines := by
  have hnot : acceptedExit line = false :=
    Bool.eq_false_iff.mpr fun h => hcode (codeAfter_of_acceptedExit h)
  constructor
  · intro h
    refine ⟨fun line' hline' => h.alone line' ?_, fun hexit => absurd hexit hcode⟩
    rw [upToExit_cons_of_not hnot lines]
    exact List.mem_cons_of_mem _ hline'
  · intro h
    refine ⟨fun line' hline' r rest hat hr => ?_, fun hexit line' hline' hat => ?_⟩
    · rw [upToExit_cons_of_not hnot lines, List.mem_cons] at hline'
      rcases hline' with rfl | hline'
      · rw [codeAfter, hat] at hcode
        exact absurd hr hcode
      · exact h.alone line' hline' r rest hat hr
    · obtain rfl := Option.some.inj hline'
      rw [codeAfter, hat] at hcode
      exact hcode hexit

/-- A loop that stops behind a line which is no accepted exit. -/
private theorem not_stopsByExit {run : ClientRun} (hline : acceptedExit line = false)
    (hunread : run.unread = lines) (hstopped : run.stopped = true) :
    ¬StopsByExit (line :: lines) run := by
  intro h
  have hup := upToExit_cons_of_not hline lines
  have hread := h.read
  rw [hup, hunread, List.cons_append, List.cons.injEq, eq_self, true_and] at hread
  have hnil : upToExit lines = [] := by
    have := congrArg List.length hread
    rw [List.length_append] at this
    exact List.length_eq_zero_iff.mp (by omega)
  obtain ⟨exit, hexit, hacc⟩ := h.stopped.mp hstopped
  rw [hup, hnil, List.mem_singleton] at hexit
  rw [hexit, hline] at hacc
  cases hacc

/-- One more line in front, which is no accepted exit. -/
private theorem stopsByExit_cons_iff {run run' : ClientRun} (hline : acceptedExit line = false)
    (hwritten : run'.written.map Request.said =
      (accepted line).toList ++ run.written.map Request.said)
    (hunread : run'.unread = run.unread) (hstopped : run'.stopped = run.stopped) :
    StopsByExit (line :: lines) run' ↔ StopsByExit lines run := by
  have hup := upToExit_cons_of_not hline lines
  have hmap : (upToExit (line :: lines)).filterMap accepted =
      (accepted line).toList ++ (upToExit lines).filterMap accepted := by
    rw [hup, List.filterMap_cons]
    cases accepted line <;> rfl
  have hmem : (∃ l ∈ upToExit (line :: lines), acceptedExit l = true) ↔
      ∃ l ∈ upToExit lines, acceptedExit l = true := by
    rw [hup, List.exists_mem_cons_iff, hline]
    simp
  constructor
  · rintro ⟨h₁, h₂, h₃⟩
    rw [hwritten, hmap, List.append_cancel_left_eq] at h₁
    rw [hup, hunread, List.cons_append, List.cons.injEq] at h₂
    rw [hstopped, hmem] at h₃
    exact ⟨h₁, h₂.2, h₃⟩
  · rintro ⟨h₁, h₂, h₃⟩
    exact ⟨by rw [hwritten, hmap, h₁], by rw [hup, hunread, List.cons_append, ← h₂],
      by rw [hstopped, hmem, h₃]⟩

/-- **The loop of the client stops by an exit** exactly if there is no stray one. -/
theorem commandLoop_iff (request : Request) (lines : List CString) :
    ∃ run, commandLoop request lines = some run ∧
      (StopsByExit lines run ↔ NoStrayExit request.code lines) := by
  induction lines generalizing request with
  | nil =>
    refine ⟨_, rfl, iff_of_true ⟨rfl, rfl, by simp [upToExit]⟩ ⟨by simp [upToExit], ?_⟩⟩
    intro _ _ hline
    cases hline
  | cons line lines ih =>
    obtain ⟨result, hresult, hwritten, hcode, hstop⟩ := commandSubroutine_spec request line
    obtain ⟨run, hrun, hiff⟩ := ih result.request
    rw [commandLoop, hresult, Option.bind_eq_bind, Option.bind_some, hstop]
    have htoList : result.written.toList.map Request.said = (accepted line).toList := by
      rw [← hwritten]
      cases result.written <;> rfl
    by_cases hexit : codeAfter request.code line = .exit
    · rw [if_pos (by simpa using hexit)]
      refine ⟨_, rfl, ?_⟩
      by_cases hacc : acceptedExit line = true
      · refine iff_of_true ⟨?_, ?_, ?_⟩ (noStrayExit_of_acceptedExit hacc)
        · rw [htoList, upToExit, if_pos hacc, List.filterMap_cons]
          cases accepted line <;> rfl
        · rw [upToExit, if_pos hacc]
          rfl
        · rw [upToExit, if_pos hacc]
          simpa using hacc
      · exact iff_of_false (not_stopsByExit (Bool.eq_false_iff.mpr hacc) rfl rfl)
          fun h => hacc (h.accepted_of_exit hexit)
    · rw [if_neg (by simpa using hexit), hrun]
      have hline : acceptedExit line = false :=
        Bool.eq_false_iff.mpr fun h => hexit (codeAfter_of_acceptedExit h)
      refine ⟨_, rfl, ?_⟩
      rw [noStrayExit_cons_iff hexit, ← hcode, ← hiff]
      exact stopsByExit_cons_iff hline (by rw [List.map_append, htoList]) rfl rfl

/-- Behind `exit foo` the client stops, and has not written anything. -/
theorem not_commandLoop : ¬∀ (request : Request) (lines : List CString) (run : ClientRun),
    commandLoop request lines = some run → StopsByExit lines run := by
  intro h
  have hstops := h ⟨.other 0, []⟩ ["exit foo\n".toList, "balance\n".toList]
    ⟨[], "Invalid command.\n".toList, true, ["balance\n".toList]⟩ (by decide +kernel)
  have hline : acceptedExit "exit foo\n".toList = false := by decide +kernel
  have hnot : ¬StopsByExit ["exit foo\n".toList, "balance\n".toList]
      ⟨[], "Invalid command.\n".toList, true, ["balance\n".toList]⟩ :=
    not_stopsByExit hline rfl rfl
  exact hnot hstops

/-! ### The fields of a request -/

/-- **The text of a request fits** into the field it is copied to, with its NUL. -/
def FitsField (r : Request) : Prop :=
  match r.code with
  | .open_ | .start => r.message.length + 1 ≤ nameMaxLength
  | .credit | .debit => r.message.length + 1 ≤ amountSize
  | _ => True

/-- A credit or debit with a number of at least as many characters as its field. -/
def LongAmount (l : List Token) : Prop :=
  ∃ word type token type' rest, l = (word, type) :: (token, type') :: rest ∧
    (word = "credit".toList ∨ word = "debit".toList) ∧ (type' = .float ∨ type' = .dec) ∧
    amountSize ≤ token.length

/-- The text does not matter for a code without a text. -/
private theorem fitsField_said (r : Request) : FitsField r.said ↔ FitsField r := by
  obtain ⟨code, message⟩ := r
  cases code <;> rfl

/-- A name that is a command's fits. -/
private theorem fitsField_of_nameCommand (hcode : code = .open_ ∨ code = .start)
    (h : nameCommand code l = some (r, rest)) : FitsField r := by
  match l, h with
  | (token, _) :: _, h =>
    rw [nameCommand] at h
    split_ifs at h with hlength
    obtain ⟨rfl, -⟩ := Prod.mk.inj (Option.some.inj h)
    have hmax : token.length + 1 ≤ nameMaxLength := by
      rw [nameMaxLength] at hlength ⊢
      omega
    rcases hcode with rfl | rfl
    · exact hmax
    · exact hmax

/-- An amount that is a command's fits if it is not long. -/
private theorem fitsField_amountCommand (hcode : code = .credit ∨ code = .debit) :
    (∀ r rest, amountCommand code l = some (r, rest) → FitsField r) ↔
      ¬∃ token type rest, l = (token, type) :: rest ∧ (type = .float ∨ type = .dec) ∧
        amountSize ≤ token.length := by
  have hfits (token : CString) : FitsField ⟨code, token⟩ ↔ ¬amountSize ≤ token.length := by
    rcases hcode with rfl | rfl
    · exact Nat.not_le.symm
    · exact Nat.not_le.symm
  constructor
  · rintro h ⟨token, type, rest, rfl, htype, hlength⟩
    exact (hfits token).mp (h _ rest (by rw [amountCommand, if_pos htype])) hlength
  · intro h r rest hcommand
    match l, hcommand with
    | (token, type) :: rest', hcommand =>
      rw [amountCommand] at hcommand
      split_ifs at hcommand with htype
      obtain ⟨rfl, -⟩ := Prod.mk.inj (Option.some.inj hcommand)
      exact (hfits token).mpr fun hlength => h ⟨token, type, rest', rfl, htype, hlength⟩

/-- **Only a long amount does not fit.** -/
theorem fitsField_commandAt (l : List Token) :
    (∀ r rest, commandAt l = some (r, rest) → FitsField r) ↔ ¬LongAmount l := by
  match l with
  | [] => exact iff_of_true (fun _ _ h => nomatch h) fun ⟨_, _, _, _, _, h, _⟩ => nomatch h
  | (word, type) :: rest =>
    have hlong : LongAmount ((word, type) :: rest) ↔
        (word = "credit".toList ∨ word = "debit".toList) ∧
          ∃ token type rest', rest = (token, type) :: rest' ∧ (type = .float ∨ type = .dec) ∧
            amountSize ≤ token.length := by
      constructor
      · rintro ⟨_, _, token, type', rest', h, hword, htype, hlength⟩
        obtain ⟨⟨rfl, rfl⟩, rfl⟩ := List.cons.inj h |>.imp Prod.mk.inj id
        exact ⟨hword, token, type', rest', rfl, htype, hlength⟩
      · rintro ⟨hword, token, type', rest', rfl, htype, hlength⟩
        exact ⟨word, type, token, type', rest', rfl, hword, htype, hlength⟩
    have hother (hcredit : word ≠ "credit".toList) (hdebit : word ≠ "debit".toList) :
        ¬LongAmount ((word, type) :: rest) :=
      fun h => (hlong.mp h).1.elim hcredit hdebit
    -- a command without a text
    have hbare {code : RequestCode} (hfits : FitsField ⟨code, []⟩)
        (hcredit : word ≠ "credit".toList) (hdebit : word ≠ "debit".toList) :
        (∀ r rest', some ((⟨code, []⟩ : Request), rest) = some (r, rest') → FitsField r) ↔
          ¬LongAmount ((word, type) :: rest) := by
      refine iff_of_true (fun r rest' h => ?_) (hother hcredit hdebit)
      obtain ⟨rfl, -⟩ := Prod.mk.inj (Option.some.inj h)
      exact hfits
    rw [commandAt]
    split_ifs with h₁ h₂ h₃ h₄ h₅ h₆ h₇
    · exact iff_of_true (fun _ _ h => fitsField_of_nameCommand (.inl rfl) h)
        (hother (by rw [h₁]; decide) (by rw [h₁]; decide))
    · exact iff_of_true (fun _ _ h => fitsField_of_nameCommand (.inr rfl) h)
        (hother (by rw [h₂]; decide) (by rw [h₂]; decide))
    · rw [fitsField_amountCommand (.inl rfl), hlong]
      simp only [h₃, true_or, true_and]
    · rw [fitsField_amountCommand (.inr rfl), hlong]
      simp only [h₄, or_true, true_and]
    · exact hbare trivial h₃ h₄
    · exact hbare trivial h₃ h₄
    · exact hbare trivial h₃ h₄
    · exact iff_of_true (fun _ _ h => nomatch h) (hother h₃ h₄)

/-- **What `set_request` copies** from a line fits exactly if it is not a long amount. -/
theorem copies_fit_iff (request : Request) (line : CString) :
    (∃ command, firstCommand request line = some command ∧
      (command.validCommand = true → FitsField command.request)) ↔
      ¬LongAmount (lineTokens line) := by
  obtain ⟨command, hcommand, hfollows⟩ := firstCommand_spec request line
  rw [← fitsField_commandAt]
  constructor
  · rintro ⟨command', hcommand', hfits⟩ r rest hat
    obtain rfl := Option.some.inj (hcommand.symm.trans hcommand')
    rw [hat] at hfollows
    cases hfollows with
    | valid hvalid hrequest _ =>
      rw [← hrequest, fitsField_said]
      exact hfits hvalid
  · intro h
    refine ⟨command, hcommand, fun hvalid => ?_⟩
    cases hat : commandAt (lineTokens line) with
    | none =>
      rw [hat] at hfollows
      cases hfollows with
      | invalid hinvalid _ =>
        rw [hvalid] at hinvalid
        cases hinvalid
    | some c =>
      rw [hat] at hfollows
      cases hfollows with
      | valid _ hrequest _ =>
        rw [← fitsField_said, hrequest]
        exact h _ _ hat

/-- A line of 108 characters: `credit` with a number of a hundred digits. -/
theorem not_copies_fit : ¬∀ (line : CString) (request : Request) (command : Command),
    line.length ≤ 199 → firstCommand request line = some command →
      command.validCommand = true → FitsField command.request := by
  intro h
  have hfits := h ("credit ".toList ++ List.replicate 100 '1' ++ ['\n']) ⟨.other 0, []⟩
    ⟨⟨"credit ".toList ++ List.replicate 100 '1' ++ ['\n'], ['\n'], .dec⟩,
      ⟨.credit, List.replicate 100 '1'⟩, true, []⟩ (by decide) (by decide +kernel) rfl
  exact absurd hfits (show ¬(List.replicate 100 '1').length + 1 ≤ amountSize by decide)

end Cs214.MultithreadedBanking
