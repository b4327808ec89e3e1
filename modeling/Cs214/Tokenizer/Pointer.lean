import Cs214.Library.Run
import Cs214.Library.Simulation
import Cs214.Tokenizer.Model

/-!
# The tokenizer in memory

The token functions as they work on memory: `*curPos` is a position in the string `ts` that the
tokenizer owns, `*length` a counter of its own and `*begin` another position, and each step of a
loop reads the memory again. The characters of `ts` and its NUL can be read and are all the
cursor may point to. A read of anything else is a fault (`none`), and so is a step of the cursor
that leaves the string. A loop carries a fuel argument that starts at the number of characters
plus one, and running out of it is a fault as well.

The names are those of `Tokenizer.Model`, where the cursor is what is left of the string.
-/

namespace Cs214.Tokenizer.Pointer

/-- The cursor with the length of the token formed so far. -/
structure Scan where
  curPos : ℕ
  length : ℕ
  deriving DecidableEq, Repr

section Memory

variable (ts : CString)

/-! ### Reads and steps -/

/-- `**curPos`, and `*(*curPos+1)` for the position behind. -/
def derefAt (curPos : ℕ) : Option Char := peek nul ts curPos

/-- `*(*curPos-1)`. -/
def derefPrev : ℕ → Option Char
  | 0 => none
  | curPos + 1 => derefAt ts curPos

/-- `(*curPos)+=n`. -/
def advance (curPos n : ℕ) : Option ℕ :=
  if curPos + n ≤ ts.length then some (curPos + n) else none

def addCurCharToToken (s : Scan) : Option Scan := do
  let curPos ← advance ts s.curPos 1
  return ⟨curPos, s.length + 1⟩

/-- The loops `while (p(**curPos)) addCurCharToToken(curPos, length)`. -/
def addWhile (p : Char → Bool) : ℕ → Scan → Option Scan
  | 0, _ => none
  | fuel + 1, s => do
    let c ← derefAt ts s.curPos
    if p c then
      let s ← addCurCharToToken ts s
      addWhile p fuel s
    else
      return s

/-- The loop of `addWhile` from the position of a scan. -/
def Scan.addWhile (s : Scan) (p : Char → Bool) : Option Scan :=
  Pointer.addWhile ts p (ts.length + 1) s

/-! ### Numbers and words -/

/-- The exponent of a floating number, from its `e`. -/
def formFloatWithExpToken (s : Scan) : Option (TokenT × Scan) := do
  let s ← addCurCharToToken ts s
  let c ← derefAt ts s.curPos
  if c == '+' || c == '-' then
    let s ← addCurCharToToken ts s
    let c ← derefAt ts s.curPos
    if isdigit c then
      let s ← addCurCharToToken ts s
      let s ← s.addWhile ts isdigit
      return (.float, s)
    else
      return (.mal, s)
  else if isdigit c then
    let s ← s.addWhile ts isdigit
    return (.float, s)
  else
    return (.mal, s)

/-- A floating number from its point. -/
def formFloatToken (s : Scan) : Option (TokenT × Scan) := do
  let s ← addCurCharToToken ts s
  let s ← s.addWhile ts isdigit
  let c ← derefAt ts s.curPos
  if c == 'e' || c == 'E' then
    formFloatWithExpToken ts s
  else
    return (.float, s)

/-- A decimal, which may turn out to be a floating number. -/
def formDecimalToken (s : Scan) : Option (TokenT × Scan) := do
  let s ← s.addWhile ts isdigit
  let c ← derefAt ts s.curPos
  if c == '.' then
    formFloatToken ts s
  else if c == 'e' || c == 'E' then
    formFloatWithExpToken ts s
  else
    return (.dec, s)

/-- A word. -/
def formWordToken (v : Variant) (s : Scan) : Option (TokenT × Scan) := do
  let s ← addCurCharToToken ts s
  let s ← s.addWhile ts v.wordPart
  return (.word, s)

/-- A hexadecimal number from its `x`. -/
def formHexToken (s : Scan) : Option (TokenT × Scan) := do
  let s ← addCurCharToToken ts s
  let c ← derefAt ts s.curPos
  if isxdigit c then
    let s ← addCurCharToToken ts s
    let s ← s.addWhile ts isxdigit
    return (.hex, s)
  else
    return (.mal, s)

/-- A number that starts with `0`. -/
def formOctalToken (s : Scan) : Option (TokenT × Scan) := do
  let s ← addCurCharToToken ts s
  let c ← derefAt ts s.curPos
  if c == 'x' || c == 'X' then
    formHexToken ts s
  else if isodigit c then
    let s ← addCurCharToToken ts s
    let s ← s.addWhile ts isodigit
    let c ← derefAt ts s.curPos
    if '8' ≤ c && c ≤ '9' then
      formDecimalToken ts s
    else if c == '.' then
      formFloatToken ts s
    else
      return (.octal, s)
  else if c == '.' then
    formFloatToken ts s
  else
    return (.dec, s)

/-- A control character; the standalone program ends there. -/
def formNextControlToken (v : Variant) (s : Scan) : Option (TokenT × Scan) := do
  let type ← v.control
  let s ← addCurCharToToken ts s
  return (type, s)

/-! ### What is skipped -/

/-- The loop `while (isspace(**curPos)) (*curPos)++`. -/
def skipSpace : ℕ → ℕ → Option ℕ
  | 0, _ => none
  | fuel + 1, curPos => do
    let c ← derefAt ts curPos
    if isspace c then
      let curPos ← advance ts curPos 1
      skipSpace fuel curPos
    else
      return curPos

/-- The loop of a `//` comment. -/
def skipLine : ℕ → ℕ → Option ℕ
  | 0, _ => none
  | fuel + 1, curPos => do
    let c ← derefAt ts curPos
    if c == nul then
      return curPos
    else if c == '\n' then
      advance ts curPos 1
    else
      let curPos ← advance ts curPos 1
      skipLine fuel curPos

/-- The loop of a comment that `/*` opened. -/
def skipBlock : ℕ → ℕ → Option ℕ
  | 0, _ => none
  | fuel + 1, curPos => do
    let c ← derefAt ts curPos
    if c == '*' then
      let curPos ← advance ts curPos 1
      let c ← derefAt ts curPos
      if c == '/' then
        advance ts curPos 1
      else
        skipBlock fuel curPos
    else if c == nul then
      return curPos
    else
      let curPos ← advance ts curPos 1
      skipBlock fuel curPos

end Memory

/-! ### Punctuation and comments -/

/-- What `formNextToken` leaves: the type it returns, where the token begins, and the cursor
with the token's length. -/
structure Formed where
  type : TokenT
  begin : ℕ
  scan : Scan
  deriving DecidableEq, Repr

section Punc

variable (ts : CString) (formNextToken : ℕ → Option Formed) (begin : ℕ) (s : Scan)

/-- The cases `*` and `=` of the switch. -/
def caseAssign : Option Formed := do
  let s ← addCurCharToToken ts s
  let c ← derefAt ts s.curPos
  if c == '=' then
    let s ← addCurCharToToken ts s
    return ⟨.ope, begin, s⟩
  else
    return ⟨.ope, begin, s⟩

/-- The cases `^`, `%`, `!` and `/`. -/
def caseComment : Option Formed := do
  let next ← derefAt ts (s.curPos + 1)
  if next == '/' then
    let curPos ← advance ts s.curPos 2
    let curPos ← skipLine ts (ts.length + 1) curPos
    formNextToken curPos
  else if next == '*' then
    let curPos ← advance ts s.curPos 2
    let curPos ← skipBlock ts (ts.length + 1) curPos
    formNextToken curPos
  else
    caseAssign ts begin s

/-- The cases `+`, `&` and `|`. -/
def caseRepeat : Option Formed := do
  let next ← derefAt ts (s.curPos + 1)
  let c ← derefAt ts s.curPos
  if next == c then
    let s ← addCurCharToToken ts s
    let s ← addCurCharToToken ts s
    return ⟨.ope, begin, s⟩
  else
    caseComment ts formNextToken begin s

/-- The case `-`. -/
def caseMinus : Option Formed := do
  let next ← derefAt ts (s.curPos + 1)
  if next == '>' then
    let s ← addCurCharToToken ts s
    let s ← addCurCharToToken ts s
    return ⟨.ope, begin, s⟩
  else
    caseRepeat ts formNextToken begin s

/-- The cases `>` and `<`, which look back at the first character. -/
def caseShift : Option Formed := do
  let s ← addCurCharToToken ts s
  let c ← derefAt ts s.curPos
  if c == '=' then
    let s ← addCurCharToToken ts s
    return ⟨.ope, begin, s⟩
  else
    let prev ← derefPrev ts s.curPos
    if c == prev then
      let s ← addCurCharToToken ts s
      let c ← derefAt ts s.curPos
      if c == '=' then
        let s ← addCurCharToToken ts s
        return ⟨.ope, begin, s⟩
      else
        return ⟨.ope, begin, s⟩
    else
      return ⟨.ope, begin, s⟩

/-- The case `.`. -/
def casePoint : Option Formed := do
  let s ← addCurCharToToken ts s
  let c ← derefAt ts s.curPos
  if isdigit c then
    let (type, s) ← formFloatToken ts s
    return ⟨type, begin, s⟩
  else
    return ⟨.ope, begin, s⟩

/-- The default case. -/
def caseDefault : Option Formed := do
  let s ← addCurCharToToken ts s
  return ⟨.ope, begin, s⟩

/-- Punctuation, by its first character. -/
def formPuncToken : Option Formed := do
  let c ← derefAt ts s.curPos
  match c with
  | '.' => casePoint ts begin s
  | '-' => caseMinus ts formNextToken begin s
  | '+' | '&' | '|' => caseRepeat ts formNextToken begin s
  | '^' | '%' | '!' | '/' => caseComment ts formNextToken begin s
  | '*' | '=' => caseAssign ts begin s
  | '>' | '<' => caseShift ts begin s
  | _ => caseDefault ts begin s

end Punc

/-- **The next token** from the cursor. `fuel` bounds the depth of the recursion through
`formPuncToken`, which sets the length and the begin anew. -/
def formNextToken (ts : CString) (v : Variant) : ℕ → ℕ → Option Formed
  | 0, _ => none
  | fuel + 1, curPos => do
    let curPos ← skipSpace ts (ts.length + 1) curPos
    let s : Scan := ⟨curPos, 0⟩
    let formed (r : Option (TokenT × Scan)) : Option Formed :=
      r.map fun r => ⟨r.1, curPos, r.2⟩
    let c ← derefAt ts curPos
    if c == '0' then formed (formOctalToken ts s)
    else if isdigit c then formed (formDecimalToken ts s)
    else if isalpha c then formed (formWordToken ts v s)
    else if ispunct c then formPuncToken ts (formNextToken ts v fuel) curPos s
    else if iscntrl c && c != nul then formed (formNextControlToken ts v s)
    else some ⟨v.zero, curPos, s⟩

/-! ### The tokenizer object -/

/-- The tokenizer: its copy of the string, the cursor, and the type of the current token. -/
structure TokenizerT where
  tokens : CString
  curPos : ℕ
  type : TokenT
  deriving DecidableEq, Repr

def tkCreate (v : Variant) (ts : CString) : TokenizerT := ⟨ts, 0, v.zero⟩

/-- `strncpy(token,begin,length)`: it stops at a NUL, which it pads the rest of the token
with. -/
def strncpy (ts : CString) (begin : ℕ) : ℕ → Option CString
  | 0 => some []
  | length + 1 => do
    let c ← derefAt ts begin
    if c == nul then
      return []
    else
      let token ← strncpy ts (begin + 1) length
      return c :: token

/-- **The next token** as a string of its own, and none at the end. -/
def tkGetNextToken (v : Variant) (tk : TokenizerT) : Option (TokenizerT × Option CString) := do
  let f ← formNextToken tk.tokens v (tk.tokens.length + 1) tk.curPos
  let token ← strncpy tk.tokens f.begin f.scan.length
  let tk := { tk with type := f.type, curPos := f.scan.curPos }
  return (tk, if deref token != nul then some token else none)

/-- A tokenizer answers any number of calls of `TKGetNextToken`. -/
def machine (v : Variant) : Machine TokenizerT Unit (Option CString) where
  legal _ _ := True
  step tk _ := tkGetNextToken v tk

instance (v : Variant) : ∀ tk call, Decidable ((machine v).legal tk call) :=
  fun _ _ => inferInstanceAs (Decidable True)

/-- The tokens with their types that repeated calls of `TKGetNextToken` give until NULL. -/
def tokensFrom (v : Variant) : ℕ → TokenizerT → Option (List (CString × TokenT))
  | 0, _ => none
  | fuel + 1, tk => do
    let (tk, token) ← tkGetNextToken v tk
    match token with
    | none => some []
    | some token => do
      let rest ← tokensFrom v fuel tk
      some ((token, tk.type) :: rest)

/-- **The tokens of a string.** -/
def tokens (v : Variant) (ts : CString) : Option (List (CString × TokenT)) :=
  tokensFrom v (ts.length + 1) (tkCreate v ts)

end Cs214.Tokenizer.Pointer
