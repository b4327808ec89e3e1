import Cs214.Tokenizer.Number
import Mathlib.Algebra.Order.Field.Power
import Mathlib.Data.Rat.Floor

/-!
# Requests and responses

What a banking client and the server say to each other, and the loop of the client that turns
the lines of the user into requests. The fields `name` and `amount` of a request are a union, so
a request has one text. Codes are given in host order: every writer applies `htonl` and every
reader `ntohl`.

What the code does with values of type `float` is left open (`Arithmetic`). Exact amounts are one
case of it, with the decimal numbers that `atof` reads.
-/

namespace Cs214.MultithreadedBanking

open Tokenizer

/-- The size of a name, with its NUL. -/
def nameMaxLength : ℕ := 101

/-- The size of the text of an amount, with its NUL. -/
def amountSize : ℕ := 100

/-- The number of accounts the server has room for. -/
def maxAccount : ℕ := 20

/-- The codes of responses. -/
inductive ResponseCode
  | success
  | cannotOpen
  | cannotStart
  | clientNotInSession
  | accountUnfound
  | balanceReachZero
  | connectionTimeOut
  | accountExit
  deriving DecidableEq, Repr

/-- The codes of requests; `other` is an integer that is none of the enumerators. -/
inductive RequestCode
  | open_
  | start
  | credit
  | debit
  | balance
  | finish
  | exit
  | other (code : ℤ)
  deriving DecidableEq, Repr

structure Response where
  code : ResponseCode
  message : CString
  deriving DecidableEq, Repr

structure Request where
  code : RequestCode
  message : CString
  deriving DecidableEq, Repr

/-- The response with a code, whose text the code may introduce or replace. -/
def formResponse (code : ResponseCode) (message : CString) : Response :=
  ⟨code, match code with
    | .success => message
    | .cannotOpen => "Cannot open the account: ".toList ++ message
    | .cannotStart => "Cannot start the session: ".toList ++ message
    | .clientNotInSession => "Please start an account session with start: ".toList
    | .accountUnfound => "Cannot find account named : ".toList ++ message
    | .balanceReachZero => "Failed to credit: ".toList ++ message
    | .connectionTimeOut => "Account timed out. Restart your banking applicatio. ".toList
    | .accountExit => message⟩

/-! ### Amounts -/

/-- The number that decimal digits stand for. -/
def ofDigits (ds : List Char) : ℕ := ds.foldl (fun n c => 10 * n + (c.toNat - '0'.toNat)) 0

/-- The exponent at the start of a text, 0 if there is none. -/
def exponentOf : List Char → ℤ
  | [] => 0
  | c :: s =>
    if c == 'e' || c == 'E' then
      match s with
      | '-' :: ds => -(ofDigits (ds.takeWhile isdigit) : ℤ)
      | '+' :: ds => ofDigits (ds.takeWhile isdigit)
      | ds => ofDigits (ds.takeWhile isdigit)
    else 0

/-- The digits behind a decimal point, and what follows them. -/
def fractionOf : List Char → List Char × List Char
  | '.' :: s => (s.takeWhile isdigit, s.dropWhile isdigit)
  | s => ([], s)

/-- The value of an unsigned decimal number. -/
def unsignedOf (s : List Char) : ℚ :=
  let whole := s.takeWhile isdigit
  let (fraction, s) := fractionOf (s.dropWhile isdigit)
  ofDigits (whole ++ fraction) * 10 ^ (exponentOf s - fraction.length)

/-- **The number a text starts with**, 0 if it starts with none. The hexadecimal numbers,
infinities and NaNs that `atof` also reads are left out. -/
def atof (s : CString) : ℚ :=
  match s.dropWhile isspace with
  | '-' :: s => -unsignedOf s
  | '+' :: s => unsignedOf s
  | s => unsignedOf s

private theorem unsignedOf_nonneg (s : List Char) : 0 ≤ unsignedOf s := by
  rw [unsignedOf]
  exact mul_nonneg (Nat.cast_nonneg _) (zpow_nonneg (by decide) _)

/-- **Only a sign makes a number negative.** -/
theorem atof_nonneg {c : Char} {s : CString} (hspace : isspace c = false) (hsign : c ≠ '-') :
    0 ≤ atof (c :: s) := by
  rw [atof, List.dropWhile_cons_of_neg (by simp [hspace])]
  split
  · rename_i heq
    exact absurd (List.cons.inj heq).1 hsign
  · exact unsignedOf_nonneg _
  · exact unsignedOf_nonneg _

/-- The text of a number with two decimals, ties to even, as `%.2f` prints it. -/
def twoDecimals (q : ℚ) : CString :=
  let cents := |q| * 100
  let low := ⌊cents⌋.toNat
  let rest := cents - low
  let n := if rest < 1 / 2 ∨ (rest = 1 / 2 ∧ low % 2 = 0) then low else low + 1
  let digits := (toString (n / 100)).toList ++ '.' ::
    (toString (n % 100 / 10)).toList ++ (toString (n % 10)).toList
  if q < 0 then '-' :: digits else digits

/-- **The arithmetic of the balances**: what the code does with values of type `float`. -/
class Arithmetic (F : Type) where
  zero : F
  add : F → F → F
  sub : F → F → F
  /-- The test for less than 0. -/
  negative : F → Bool
  /-- What `atof` gives, as the functions of an account take it. -/
  amount : CString → F
  /-- What `%.2f` prints. -/
  text : F → CString

/-- Exact amounts. -/
instance : Arithmetic ℚ where
  zero := 0
  add x y := x + y
  sub x y := x - y
  negative x := x < 0
  amount := atof
  text := twoDecimals

theorem negative_eq_false {x : ℚ} : Arithmetic.negative x = false ↔ 0 ≤ x := by
  change decide (x < 0) = false ↔ 0 ≤ x
  rw [decide_eq_false_iff_not, not_lt]

/-! ### The client -/

/-- Fill in a request; a code without a text leaves the text of the request before. -/
def setRequest (request : Request) (code : RequestCode) (message : CString) : Request :=
  match code with
  | .open_ | .start | .credit | .debit => ⟨code, message⟩
  | _ => { request with code := code }

/-- What the client prints about a line it does not understand. -/
def invalidCmd : CString := "Invalid command. Use help to get more information.".toList

def prompt : CString := "$> ".toList

/-- The loop of the client on one line: the tokenizer, the request, whether the command is
valid, and what is printed. -/
structure Command where
  tk : TokenizerT
  request : Request
  validCommand : Bool
  printed : CString
  deriving DecidableEq

/-- The argument of `open` and `start`, a name that fits. -/
def nameArgument (request : Request) (code : RequestCode) (noName : CString) (tk : TokenizerT) :
    Option Command := do
  let (tk, token) ← tkGetNextToken banking tk
  match token with
  | none => return ⟨tk, request, false, noName⟩
  | some token =>
    if token.length ≤ nameMaxLength - 1 then
      return ⟨tk, setRequest request code token, true, []⟩
    else
      return ⟨tk, request, false, "The name length is invalid.\n".toList⟩

/-- The argument of `credit` and `debit`, a FLOAT or DEC token; `other` is printed about any
other token. -/
def amountArgument (request : Request) (code : RequestCode) (other : CString) (tk : TokenizerT) :
    Option Command := do
  let (tk, token) ← tkGetNextToken banking tk
  match token with
  | none => return ⟨tk, request, false, invalidCmd ++ ['\n']⟩
  | some token =>
    if tkGetType tk = .float ∨ tkGetType tk = .dec then
      return ⟨tk, setRequest request code token, true, []⟩
    else
      return ⟨tk, request, false, other⟩

/-- What `help` prints. -/
def helpText : CString := ("open ACCOUNT_NAME\n" ++ "start ACCOUNT_NAME\n" ++ "credit AMOUNT\n" ++
  "debit AMOUNT\n" ++ "balance\n" ++ "finish\n" ++ "exit\n").toList

/-- The command of a line, by its first token. -/
def commandOf (request : Request) (tk : TokenizerT) : Option CString → Option Command
  | none => some ⟨tk, request, false, []⟩
  | some token =>
    if token = "open".toList then nameArgument request .open_ invalidCmd tk
    else if token = "start".toList then nameArgument request .start (invalidCmd ++ ['\n']) tk
    else if token = "credit".toList then amountArgument request .credit [] tk
    else if token = "debit".toList then amountArgument request .debit (invalidCmd ++ ['\n']) tk
    else if token = "balance".toList then some ⟨tk, setRequest request .balance [], true, []⟩
    else if token = "finish".toList then some ⟨tk, setRequest request .finish [], true, []⟩
    else if token = "exit".toList then some ⟨tk, setRequest request .exit [], true, []⟩
    else if token = "help".toList then some ⟨tk, request, false, helpText⟩
    else some ⟨tk, request, false, ("The command is invalid. Use 'help' to see a " ++
      "list of command options.\n").toList⟩

/-- What the client does with a line: the request it keeps, the request it writes to the socket,
what it prints, and whether it stops. -/
structure LineResult where
  request : Request
  written : Option Request
  printed : CString
  stop : Bool

/-- **One line of the client.** Anything behind a valid command makes it invalid. -/
def commandSubroutine (request : Request) (userInput : CString) : Option LineResult := do
  let (tk, token) ← tkGetNextToken banking (tkCreate banking userInput)
  let command ← commandOf request tk token
  let stop : Bool := command.request.code = .exit
  let tail := if stop then [] else prompt
  if command.validCommand then
    let (_, token) ← tkGetNextToken banking command.tk
    match token with
    | some _ =>
      return ⟨command.request, none, command.printed ++ "Invalid command.\n".toList ++ tail, stop⟩
    | none => return ⟨command.request, some command.request, command.printed ++ tail, stop⟩
  else
    return ⟨command.request, none, command.printed ++ tail, stop⟩

/-! ### The amounts that are sent -/

/-- **A text the client accepts as an amount**: a FLOAT or DEC token. -/
def IsAmount (t : CString) : Prop := ∃ tk tk', tkGetNextToken banking tk = some (tk', some t) ∧
  (tkGetType tk' = .float ∨ tkGetType tk' = .dec)

/-- **A request whose amount, if it has one, is a FLOAT or DEC token.** -/
def HasAmount (r : Request) : Prop := r.code = .credit ∨ r.code = .debit → IsAmount r.message

/-- **An amount has no sign.** -/
theorem IsAmount.nonneg {t : CString} (h : IsAmount t) : 0 ≤ atof t := by
  obtain ⟨tk, tk', hnext, htype⟩ := h
  obtain ⟨c, rest, rfl, hstart⟩ := tkGetNextToken_number (v := banking) (by decide)
    (fun t ht => by cases ht; decide) hnext htype
  obtain ⟨hspace, hsign⟩ := not_space_of_startsNumber hstart
  exact atof_nonneg hspace hsign

/-- The argument of a credit or debit is an amount. -/
private theorem amountArgument_isAmount {request : Request} {code : RequestCode} {other : CString}
    {tk : TokenizerT} {command : Command}
    (h : amountArgument request code other tk = some command) (hv : command.validCommand = true) :
    ∃ t, IsAmount t ∧ command.request = setRequest request code t := by
  simp only [amountArgument, Option.bind_eq_bind, Option.bind_eq_some_iff] at h
  obtain ⟨⟨tk', token⟩, hnext, h⟩ := h
  rcases token with _ | token
  · obtain rfl := Option.some.inj h
    cases hv
  · dsimp only at h
    split at h
    · rename_i htype
      obtain rfl := Option.some.inj h
      exact ⟨token, ⟨tk, tk', hnext, htype⟩, rfl⟩
    · obtain rfl := Option.some.inj h
      cases hv

/-- A name is sent with the code it was given for. -/
private theorem nameArgument_code {request : Request} {code : RequestCode} {noName : CString}
    {tk : TokenizerT} {command : Command} (h : nameArgument request code noName tk = some command)
    (hv : command.validCommand = true) : ∃ t, command.request = setRequest request code t := by
  simp only [nameArgument, Option.bind_eq_bind, Option.bind_eq_some_iff] at h
  obtain ⟨⟨tk', token⟩, -, h⟩ := h
  rcases token with _ | token
  · obtain rfl := Option.some.inj h
    cases hv
  · dsimp only at h
    split at h
    · obtain rfl := Option.some.inj h
      exact ⟨token, rfl⟩
    · obtain rfl := Option.some.inj h
      cases hv

/-- A valid command that is a credit or a debit has an amount. -/
private theorem commandOf_hasAmount {request : Request} {tk : TokenizerT} {token : Option CString}
    {command : Command} (h : commandOf request tk token = some command)
    (hv : command.validCommand = true) : HasAmount command.request := by
  intro hcode
  unfold commandOf at h
  split at h
  · obtain rfl := Option.some.inj h
    cases hv
  · split_ifs at h
    case pos | pos =>
      obtain ⟨t, heq⟩ := nameArgument_code h hv
      rw [heq] at hcode
      rcases hcode with hcode | hcode <;> cases hcode
    case pos | pos =>
      obtain ⟨t, ht, heq⟩ := amountArgument_isAmount h hv
      rw [heq]
      exact ht
    case pos | pos | pos =>
      obtain rfl := Option.some.inj h
      rcases hcode with hcode | hcode <;> cases hcode
    case pos | neg =>
      obtain rfl := Option.some.inj h
      cases hv

/-- **The client sends amounts only.** -/
theorem commandSubroutine_hasAmount {request r : Request} {userInput : CString}
    {result : LineResult} (h : commandSubroutine request userInput = some result)
    (hr : result.written = some r) : HasAmount r := by
  simp only [commandSubroutine, Option.bind_eq_bind, Option.bind_eq_some_iff] at h
  obtain ⟨⟨tk, token⟩, -, command, hcommand, h⟩ := h
  split at h
  · rename_i hv
    obtain ⟨⟨tk', token'⟩, -, h⟩ := Option.bind_eq_some_iff.mp h
    rcases token' with _ | token'
    · obtain rfl := Option.some.inj h
      obtain rfl := Option.some.inj hr
      exact commandOf_hasAmount hcommand hv
    · obtain rfl := Option.some.inj h
      cases hr
  · obtain rfl := Option.some.inj h
    cases hr

end Cs214.MultithreadedBanking
