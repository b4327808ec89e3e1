import Cs214.MultithreadedBanking.ClientLoop
import Cs214.MultithreadedBanking.Model

/-!
# The sizes of the messages

Every handler of a request formats its message with `sprintf` into a buffer of its own and hands
it to `form_response`, which copies it behind a prefix into the response. `clientTexts` gives the
strings that are formatted for one request, each with the size of its buffer. Names and amounts
are as long as their fields, and a balance is any value of type `float`: finite ones have at most
39 digits before the point.

All strings fit but the receipts of `client_credit` and `client_debit`, which put an amount of up
to 99 characters into a buffer of 100 (`messages_fit_iff`).
-/

namespace Cs214.MultithreadedBanking

open Tokenizer (CString)

/-! ### Floating balances -/

/-- **A value of type `float`**; a finite one is `mantissa * 2 ^ exponent` with a sign. -/
inductive FloatT
  | finite (negative : Bool) (mantissa : ℕ) (exponent : ℤ) (hmantissa : mantissa < 2 ^ 24)
      (hexponent : -149 ≤ exponent ∧ exponent ≤ 104)
  | infinite (negative : Bool)
  | nan (negative : Bool)

namespace FloatT

/-- The sign as it is printed. -/
def sign (negative : Bool) : CString := if negative then ['-'] else []

/-- What `%.2f` prints. -/
def text : FloatT → CString
  | finite negative mantissa exponent _ _ =>
    sign negative ++ twoDecimals (mantissa * 2 ^ exponent)
  | infinite negative => sign negative ++ "inf".toList
  | nan negative => sign negative ++ "nan".toList

/-- A finite value with its sign. -/
def signed (negative : Bool) (mantissa : ℕ) (exponent : ℤ) : ℚ :=
  if negative then -(mantissa * 2 ^ exponent) else mantissa * 2 ^ exponent

/-- `x - y < 0`: rounding the difference of two floats keeps its sign, and a difference that is
no number is not less than zero. -/
def subNegative : FloatT → FloatT → Bool
  | nan _, _ | _, nan _ => false
  | infinite s, infinite s' => s && !s'
  | infinite s, finite .. => s
  | finite .., infinite s' => !s'
  | finite s m e _ _, finite s' m' e' _ _ => signed s m e < signed s' m' e'

end FloatT

private theorem length_toString_le {n k : ℕ} (hk : 0 < k) (h : n < 10 ^ k) :
    (toString n).toList.length ≤ k := by
  rw [String.length_toList]
  exact (Nat.length_repr_le_iff hk).mpr h

/-- A number is printed as hundredths, rounded. -/
private theorem exists_hundredths {q : ℚ} {N : ℕ} (h₀ : 0 ≤ q) (hq : q ≤ N) :
    ∃ n ≤ 100 * N, twoDecimals q = (toString (n / 100)).toList ++ '.' ::
      (toString (n % 100 / 10)).toList ++ (toString (n % 10)).toList := by
  have hlow : 0 ≤ ⌊q * 100⌋ := Int.floor_nonneg.mpr (by positivity)
  have hcast : ((⌊q * 100⌋.toNat : ℕ) : ℚ) = ⌊q * 100⌋ := by
    exact_mod_cast congrArg (Int.cast (R := ℚ)) (Int.toNat_of_nonneg hlow)
  have hle : ⌊q * 100⌋ ≤ 100 * N := by
    refine Int.floor_le_iff.mpr ?_
    push_cast
    linarith
  rw [twoDecimals, if_neg (not_lt.mpr h₀), abs_of_nonneg h₀]
  refine ⟨_, ?_, rfl⟩
  split_ifs with hround
  · omega
  · -- it is rounded up only if it is not whole
    rw [not_or, not_lt, hcast] at hround
    have hlt : (⌊q * 100⌋ : ℚ) < 100 * N := by linarith [hround.1]
    have hlt : ⌊q * 100⌋ < 100 * N := by exact_mod_cast hlt
    omega

/-- How many characters are printed, by the digits before the point. -/
private theorem length_twoDecimals_le {q : ℚ} {k N : ℕ} (hk : 0 < k) (h₀ : 0 ≤ q) (hq : q ≤ N)
    (hN : N < 10 ^ k) : (twoDecimals q).length ≤ k + 3 := by
  obtain ⟨n, hn, heq⟩ := exists_hundredths h₀ hq
  have h₁ := length_toString_le hk (show n / 100 < 10 ^ k by omega)
  have h₂ := length_toString_le (k := 1) (by decide) (show n % 100 / 10 < 10 ^ 1 by omega)
  have h₃ := length_toString_le (k := 1) (by decide) (show n % 10 < 10 ^ 1 by omega)
  rw [heq]
  simp only [List.length_append, List.length_cons]
  omega

/-- **A floating number takes at most 43 characters.** -/
theorem FloatT.length_text_le (x : FloatT) : x.text.length ≤ 43 := by
  have hsign (negative : Bool) : (sign negative).length ≤ 1 := by cases negative <;> decide
  cases x with
  | finite negative mantissa exponent hmantissa hexponent =>
    have hpow : (2 : ℚ) ^ exponent ≤ 2 ^ 104 := by
      have := zpow_le_zpow_right₀ (a := (2 : ℚ)) (by norm_num) hexponent.2
      exact_mod_cast this
    have hm : (mantissa : ℚ) ≤ 2 ^ 24 := by exact_mod_cast hmantissa.le
    have hle : (mantissa : ℚ) * 2 ^ exponent ≤ (2 ^ 128 : ℕ) := by
      calc (mantissa : ℚ) * 2 ^ exponent ≤ 2 ^ 24 * 2 ^ 104 :=
            mul_le_mul hm hpow (by positivity) (by positivity)
        _ = (2 ^ 128 : ℕ) := by norm_num
    have hlen := length_twoDecimals_le (k := 39) (by decide) (by positivity) hle (by norm_num)
    rw [text, List.length_append]
    have := hsign negative
    omega
  | infinite negative =>
    rw [text, List.length_append]
    have := hsign negative
    have : "inf".toList.length = 3 := rfl
    omega
  | nan negative =>
    rw [text, List.length_append]
    have := hsign negative
    have : "nan".toList.length = 3 := rfl
    omega

/-! ### What the handlers format -/

/-- A string that is formatted, and the size of the buffer it is written to. -/
structure Formatted where
  text : CString
  size : ℕ

/-- **A string fits** its buffer with its NUL. -/
def Formatted.Fits (f : Formatted) : Prop := f.text.length + 1 ≤ f.size

/-- The size of the message of a response. -/
def responseMesLength : ℕ := 300

/-- What `form_response` writes to the message of the response. -/
def responseText (code : ResponseCode) (message : CString) : Formatted :=
  ⟨(formResponse code message).message, responseMesLength⟩

/-- A message that is formatted in a buffer and handed to `form_response`. -/
def messageTexts (size : ℕ) (code : ResponseCode) (message : CString) : List Formatted :=
  [⟨message, size⟩, responseText code message]

/-- An account, for what is printed of it. Its name ends inside its field. -/
structure AccountState where
  name : CString
  balance : FloatT
  inSession : InSession
  length_name : name.length + 1 ≤ nameMaxLength

/-- What the server knows when it handles a request: the accounts, and the one the client points
to. -/
structure ServerState where
  accounts : List AccountState
  clientAccount : Option AccountState

/-- `search_account`; none is its `-1`. -/
def searchResult (accounts : List AccountState) (name : CString) : Option ℕ :=
  if accounts.length = 0 then none else some (accounts.findIdx fun a => a.name = name)

/-- `client_open`. -/
def openTexts (accounts : List AccountState) (name : CString) : List Formatted :=
  let opened := messageTexts 200 .success ("Account ".toList ++ name ++ " opened".toList)
  if accounts.length = maxAccount then [responseText .cannotOpen "Database is full.".toList]
  else
    match searchResult accounts name with
    | none => opened
    | some index =>
      if (index : ℤ) ≤ accounts.length - 1 then
        [responseText .cannotOpen "Account's already created.".toList]
      else opened

/-- `client_start`, which waits for the account some times. -/
def startTexts (accounts : List AccountState) (waits : ℕ) (name : CString) : List Formatted :=
  let notFound := [responseText .cannotStart "Account is not found.".toList]
  match searchResult accounts name with
  | none => notFound
  | some index =>
    if index = accounts.length then notFound
    else
      List.replicate waits (responseText .success "Waiting to start customer session.".toList) ++
        messageTexts 200 .success ("Account ".toList ++ name ++ " is in session.".toList)

section Amounts

variable (amountOf : CString → FloatT)

/-- `client_debit`. The conversion `amountOf` of an amount is that of `atof` to a float. -/
def debitTexts (account : AccountState) (amount : CString) : List Formatted :=
  if account.balance.subNegative (amountOf amount) then
    messageTexts 100 .balanceReachZero
      ("Balance reached 0. Your balance is: $".toList ++ account.balance.text)
  else
    messageTexts 100 .success ("Successfully debit $".toList ++ amount ++ ".".toList)

def creditTexts (amount : CString) : List Formatted :=
  messageTexts 100 .success ("Successfully credit $".toList ++ amount ++ ".".toList)

/-- The case `BALANCE` of the switch. -/
def balanceTexts (account : AccountState) : List Formatted :=
  [responseText .success [], ⟨"Account: ".toList ++ account.name ++ ".\nYour balance is ".toList ++
    account.balance.text ++ ".".toList, responseMesLength⟩]

/-- The switch for a client without a session. -/
def outOfSessionTexts (s : ServerState) (waits : ℕ) (request : Request) : List Formatted :=
  match request.code with
  | .open_ => openTexts s.accounts request.message
  | .start => startTexts s.accounts waits request.message
  | .exit => [responseText .accountExit "Exit acknowledged.".toList]
  | _ => [responseText .clientNotInSession
      "Please start an account before doing the transaction.".toList]

/-- The switch for a client in session. -/
def inSessionTexts (account : AccountState) (request : Request) : List Formatted :=
  match request.code with
  | .open_ => [responseText .cannotOpen "Please finish this account session first.".toList]
  | .start => [responseText .cannotStart "Please finish this account session first.".toList]
  | .debit => debitTexts amountOf account request.message
  | .credit => creditTexts request.message
  | .balance => balanceTexts account
  | .finish => [responseText .success "Account session closed.".toList]
  | .exit => [responseText .accountExit
      "Exit acknowledged and account session closed.".toList]
  | .other _ => [responseText .success "Not a valid request.".toList]

/-- **The strings that are formatted** for one request. -/
def clientTexts (s : ServerState) (waits : ℕ) (request : Request) : List Formatted :=
  match s.clientAccount with
  | none => outOfSessionTexts s waits request
  | some account =>
    if account.inSession = .inSession then inSessionTexts amountOf account request
    else outOfSessionTexts s waits request

/-- **A receipt for a long amount**: a credit of at least 78 characters, or a debit that is
granted of at least 79, of a client in session. -/
def LongReceipt (s : ServerState) (request : Request) : Prop :=
  ∃ account, s.clientAccount = some account ∧ account.inSession = .inSession ∧
    (request.code = .credit ∧ 78 ≤ request.message.length ∨
      request.code = .debit ∧ account.balance.subNegative (amountOf request.message) = false ∧
        79 ≤ request.message.length)

end Amounts

/-! ### What fits -/

section Fits

variable {code : ResponseCode} {message name amount : CString} {size waits : ℕ} {request : Request}
  {account : AccountState} {accounts : List AccountState} {s : ServerState}
  {amountOf : CString → FloatT}

/-- **`form_response`** has room for every prefix. -/
theorem responseText_fits (code : ResponseCode) (h : message.length ≤ 200) :
    (responseText code message).Fits := by
  rw [Formatted.Fits, responseText, responseMesLength]
  cases code <;> simp only [formResponse, List.length_append] <;> simp <;> omega

/-- A message fits if it fits its own buffer. -/
private theorem messageTexts_fit_iff (hsize : size ≤ 200) :
    (∀ f ∈ messageTexts size code message, f.Fits) ↔ message.length + 1 ≤ size := by
  rw [messageTexts]
  constructor
  · intro h
    exact h _ List.mem_cons_self
  · intro h f hf
    rcases List.mem_cons.mp hf with rfl | hf
    · exact h
    · obtain rfl := List.mem_singleton.mp hf
      exact responseText_fits code (by omega)

/-- A response with a fixed message. -/
private theorem single_fits (code : ResponseCode) (h : message.length ≤ 200) :
    ∀ f ∈ [responseText code message], f.Fits := by
  intro f hf
  obtain rfl := List.mem_singleton.mp hf
  exact responseText_fits code h

private theorem openTexts_fit (hname : name.length + 1 ≤ nameMaxLength) :
    ∀ f ∈ openTexts accounts name, f.Fits := by
  rw [nameMaxLength] at hname
  have hopened : ∀ f ∈ messageTexts 200 .success
      ("Account ".toList ++ name ++ " opened".toList), f.Fits := by
    refine (messageTexts_fit_iff le_rfl).mpr ?_
    simp only [List.length_append]
    have h₁ : "Account ".toList.length = 8 := rfl
    have h₂ : " opened".toList.length = 7 := rfl
    omega
  rw [openTexts]
  split
  · exact single_fits _ (by decide)
  · split
    · exact hopened
    · split
      · exact single_fits _ (by decide)
      · exact hopened

private theorem startTexts_fit (hname : name.length + 1 ≤ nameMaxLength) :
    ∀ f ∈ startTexts accounts waits name, f.Fits := by
  rw [nameMaxLength] at hname
  rw [startTexts]
  split
  · exact single_fits _ (by decide)
  · split
    · exact single_fits _ (by decide)
    · intro f hf
      rcases List.mem_append.mp hf with hf | hf
      · obtain rfl := List.eq_of_mem_replicate hf
        exact responseText_fits _ (by decide)
      · refine (messageTexts_fit_iff le_rfl).mpr ?_ f hf
        simp only [List.length_append]
        have h₁ : "Account ".toList.length = 8 := rfl
        have h₂ : " is in session.".toList.length = 15 := rfl
        omega

/-- The receipt of a credit. -/
private theorem creditTexts_fit_iff : (∀ f ∈ creditTexts amount, f.Fits) ↔ amount.length < 78 := by
  rw [creditTexts, messageTexts_fit_iff (by decide)]
  simp only [List.length_append]
  have h₁ : "Successfully credit $".toList.length = 21 := rfl
  have h₂ : ".".toList.length = 1 := rfl
  omega

/-- The receipt of a debit, or the balance that refuses it. -/
private theorem debitTexts_fit_iff : (∀ f ∈ debitTexts amountOf account amount, f.Fits) ↔
    account.balance.subNegative (amountOf amount) = true ∨ amount.length < 79 := by
  rw [debitTexts]
  split_ifs with hneg
  · rw [messageTexts_fit_iff (by decide)]
    refine iff_of_true ?_ (.inl hneg)
    have h := account.balance.length_text_le
    have h₁ : "Balance reached 0. Your balance is: $".toList.length = 37 := rfl
    rw [List.length_append]
    omega
  · rw [messageTexts_fit_iff (by decide)]
    simp only [List.length_append]
    have h₁ : "Successfully debit $".toList.length = 20 := rfl
    have h₂ : ".".toList.length = 1 := rfl
    rw [or_iff_right hneg]
    omega

private theorem balanceTexts_fit (account : AccountState) : ∀ f ∈ balanceTexts account, f.Fits := by
  intro f hf
  rcases List.mem_cons.mp hf with rfl | hf
  · exact responseText_fits _ (by decide)
  · obtain rfl := List.mem_singleton.mp hf
    have h := account.balance.length_text_le
    have hname := account.length_name
    have h₁ : "Account: ".toList.length = 9 := rfl
    have h₂ : ".\nYour balance is ".toList.length = 18 := rfl
    have h₃ : ".".toList.length = 1 := rfl
    rw [nameMaxLength] at hname
    rw [Formatted.Fits, responseMesLength]
    simp only [List.length_append]
    omega

private theorem outOfSessionTexts_fit (h : FitsField request) :
    ∀ f ∈ outOfSessionTexts s waits request, f.Fits := by
  obtain ⟨code, message⟩ := request
  cases code with
  | open_ => exact openTexts_fit h
  | start => exact startTexts_fit h
  | credit | debit | balance | finish | exit | other => exact single_fits _ (by decide)

private theorem inSessionTexts_fit_iff : (∀ f ∈ inSessionTexts amountOf account request, f.Fits) ↔
    ¬(request.code = .credit ∧ 78 ≤ request.message.length ∨
      request.code = .debit ∧ account.balance.subNegative (amountOf request.message) = false ∧
        79 ≤ request.message.length) := by
  obtain ⟨code, message⟩ := request
  cases code with
  | credit =>
    refine creditTexts_fit_iff.trans ?_
    simp
  | debit =>
    refine debitTexts_fit_iff.trans ?_
    cases account.balance.subNegative (amountOf message) <;> simp
  | balance => exact iff_of_true (balanceTexts_fit account) (by simp)
  | open_ | start | finish | exit | other =>
    exact iff_of_true (single_fits _ (by decide)) (by simp)

/-- **Every message fits** its buffers unless it is a receipt for a long amount. -/
theorem messages_fit_iff (amountOf : CString → FloatT) (s : ServerState) (waits : ℕ)
    (h : FitsField request) :
    (∀ f ∈ clientTexts amountOf s waits request, f.Fits) ↔ ¬LongReceipt amountOf s request := by
  rw [clientTexts, LongReceipt]
  cases hacc : s.clientAccount with
  | none => exact iff_of_true (outOfSessionTexts_fit h) (by simp)
  | some account =>
    dsimp only
    split_ifs with hsession
    · rw [inSessionTexts_fit_iff]
      simp [hsession]
    · exact iff_of_true (outOfSessionTexts_fit h) (by simp [hsession])

end Fits

/-! ### Receipts -/

section Receipts

variable {F : Type} [Arithmetic F] {sh sh' : ServerSession F} {c c' : Client F} {o : Output}
  {balance : F}

/-- The response of a process that has credited an account is the receipt. -/
theorem clientCredit_text (h : clientCredit sh c (.store balance) = some (sh', c', o)) :
    ⟨c'.response.message, responseMesLength⟩ ∈ creditTexts c.request.message := by
  obtain ⟨index, -, h⟩ := Option.bind_eq_some_iff.mp h
  obtain ⟨account, -, h⟩ := Option.bind_eq_some_iff.mp h
  obtain ⟨-, rfl, -⟩ := by simpa [move] using h
  simp [creditTexts, messageTexts, responseText, Client.respond]

/-- And so is that of one that has debited an account. -/
theorem clientDebit_text {amountOf : CString → FloatT} {account : AccountState}
    (h : clientDebit sh c (.store balance) = some (sh', c', o))
    (hgranted : account.balance.subNegative (amountOf c.request.message) = false) :
    ⟨c'.response.message, responseMesLength⟩ ∈ debitTexts amountOf account c.request.message := by
  obtain ⟨index, -, h⟩ := Option.bind_eq_some_iff.mp h
  obtain ⟨account, -, h⟩ := Option.bind_eq_some_iff.mp h
  obtain ⟨-, rfl, -⟩ := by simpa [move] using h
  simp [debitTexts, hgranted, messageTexts, responseText, Client.respond]

/-- A balance of five. -/
def five : FloatT := .finite false 5 0 (by decide) (by decide)

/-- A server with one account, in session with the client. -/
def oneAccount : ServerState :=
  ⟨[⟨['a'], five, .inSession, by decide⟩], some ⟨['a'], five, .inSession, by decide⟩⟩

theorem messages_fit_iff_five :
    (∀ f ∈ clientTexts (fun _ => five) oneAccount 0 ⟨.credit, ['5']⟩, f.Fits) ↔
      ¬LongReceipt (fun _ => five) oneAccount ⟨.credit, ['5']⟩ :=
  messages_fit_iff (fun _ => five) oneAccount 0
    (show ['5'].length + 1 ≤ amountSize by decide)

/-- The receipt for a credit of 78 digits. -/
theorem not_messages_fit : ¬∀ (amountOf : CString → FloatT) (s : ServerState) (waits : ℕ)
    (request : Request), FitsField request →
      ∀ f ∈ clientTexts amountOf s waits request, f.Fits := by
  intro h
  have hfits := h (fun _ => five) oneAccount 0 ⟨.credit, List.replicate 78 '1'⟩
    (show (List.replicate 78 '1').length + 1 ≤ amountSize by decide)
  have hlt : (List.replicate 78 '1').length < 78 := creditTexts_fit_iff.mp hfits
  exact absurd hlt (by decide)

end Receipts

end Cs214.MultithreadedBanking
