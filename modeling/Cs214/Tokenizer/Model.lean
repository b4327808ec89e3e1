import Mathlib.Data.List.Basic

/-!
# The tokenizer

The tokenizer of the indexer and of the banking client is one program in three copies, which
differ in the characters that continue a word and in what they do about a control character;
a `Variant` holds these differences.

A C string is the list of its characters before the terminating NUL. The cursor `curPos` is the
rest of the string from the position it points to, so that reading `**curPos` at the end gives
the NUL. Every step past the NUL, and every read behind it, is a fault (`none`).
-/

namespace Cs214.Tokenizer

/-- The characters of a C string before its terminating NUL. -/
abbrev CString := List Char

/-- The token types. -/
inductive TokenT
  | ctr
  | ope
  | mal
  | octal
  | hex
  | dec
  | word
  | float
  deriving DecidableEq, Repr

/-! ### Character classes of the C locale -/

/-- The character that ends a string. -/
def nul : Char := '\x00'

def isspace (c : Char) : Bool := c == ' ' || ('\t' ≤ c && c ≤ '\r')

def isdigit (c : Char) : Bool := '0' ≤ c && c ≤ '9'

def isalpha (c : Char) : Bool := ('A' ≤ c && c ≤ 'Z') || ('a' ≤ c && c ≤ 'z')

def isalnum (c : Char) : Bool := isalpha c || isdigit c

def isxdigit (c : Char) : Bool :=
  isdigit c || ('A' ≤ c && c ≤ 'F') || ('a' ≤ c && c ≤ 'f')

def ispunct (c : Char) : Bool := '!' ≤ c && c ≤ '~' && !isalnum c

def iscntrl (c : Char) : Bool := c < ' ' || c == '\x7f'

def tolower (c : Char) : Char := if 'A' ≤ c && c ≤ 'Z' then Char.ofNat (c.toNat + 32) else c

/-- The octal digits, a class of the source's own. -/
def isodigit (c : Char) : Bool := '0' ≤ c && c ≤ '7'

/-- **The copies of the tokenizer** differ in these points. -/
structure Variant where
  /-- The characters that continue a word. -/
  wordPart : Char → Bool
  /-- The type of a control character, or none if the program ends there. -/
  control : Option TokenT
  /-- The token type of value 0. -/
  zero : TokenT

/-- The copy of the indexer. -/
def indexer : Variant := ⟨isalnum, some .ctr, .ctr⟩

/-- The copy of the banking client: an underscore continues a word. -/
def banking : Variant := ⟨fun c => isalnum c || c == '_', some .ctr, .ctr⟩

/-- The copy of the standalone program, which has no type for control characters. -/
def standalone : Variant := ⟨isalnum, none, .ope⟩

/-! ### The cursor -/

/-- The cursor with the length of the token formed so far. -/
structure Scan where
  curPos : List Char
  length : ℕ
  deriving DecidableEq, Repr

/-- The character under the cursor. -/
def deref (cur : List Char) : Char := cur.headD nul

/-- The character behind the one under the cursor. -/
def derefNext : List Char → Option Char
  | [] => none
  | _ :: cur => some (deref cur)

/-- Take the character under the cursor into the token. -/
def addCurCharToToken (s : Scan) : Option Scan :=
  match s.curPos with
  | [] => none
  | _ :: cur => some ⟨cur, s.length + 1⟩

/-- The loops `while (p(**curPos)) addCurCharToToken(curPos, length)`. -/
def addWhile (p : Char → Bool) : List Char → ℕ → Option Scan
  | [], n => if p nul then none else some ⟨[], n⟩
  | c :: cur, n => if p c then addWhile p cur (n + 1) else some ⟨c :: cur, n⟩

/-- The loop of `addWhile` from the position of a scan. -/
def Scan.addWhile (s : Scan) (p : Char → Bool) : Option Scan :=
  Tokenizer.addWhile p s.curPos s.length

/-! ### Numbers and words -/

/-- The exponent of a floating number, from its `e`. -/
def formFloatWithExpToken (s : Scan) : Option (TokenT × Scan) := do
  let s ← addCurCharToToken s
  if deref s.curPos == '+' || deref s.curPos == '-' then
    let s ← addCurCharToToken s
    if isdigit (deref s.curPos) then
      let s ← addCurCharToToken s
      let s ← s.addWhile isdigit
      return (.float, s)
    else
      return (.mal, s)
  else if isdigit (deref s.curPos) then
    let s ← s.addWhile isdigit
    return (.float, s)
  else
    return (.mal, s)

/-- A floating number from its point. -/
def formFloatToken (s : Scan) : Option (TokenT × Scan) := do
  let s ← addCurCharToToken s
  let s ← s.addWhile isdigit
  if deref s.curPos == 'e' || deref s.curPos == 'E' then
    formFloatWithExpToken s
  else
    return (.float, s)

/-- A decimal, which may turn out to be a floating number. -/
def formDecimalToken (s : Scan) : Option (TokenT × Scan) := do
  let s ← s.addWhile isdigit
  if deref s.curPos == '.' then
    formFloatToken s
  else if deref s.curPos == 'e' || deref s.curPos == 'E' then
    formFloatWithExpToken s
  else
    return (.dec, s)

/-- A word. -/
def formWordToken (v : Variant) (s : Scan) : Option (TokenT × Scan) := do
  let s ← addCurCharToToken s
  let s ← s.addWhile v.wordPart
  return (.word, s)

/-- A hexadecimal number from its `x`. -/
def formHexToken (s : Scan) : Option (TokenT × Scan) := do
  let s ← addCurCharToToken s
  if isxdigit (deref s.curPos) then
    let s ← addCurCharToToken s
    let s ← s.addWhile isxdigit
    return (.hex, s)
  else
    return (.mal, s)

/-- A number that starts with `0`. -/
def formOctalToken (s : Scan) : Option (TokenT × Scan) := do
  let s ← addCurCharToToken s
  if deref s.curPos == 'x' || deref s.curPos == 'X' then
    formHexToken s
  else if isodigit (deref s.curPos) then
    let s ← addCurCharToToken s
    let s ← s.addWhile isodigit
    if '8' ≤ deref s.curPos && deref s.curPos ≤ '9' then
      formDecimalToken s
    else if deref s.curPos == '.' then
      formFloatToken s
    else
      return (.octal, s)
  else if deref s.curPos == '.' then
    formFloatToken s
  else
    return (.dec, s)

/-- A control character; the standalone program ends there. -/
def formNextControlToken (v : Variant) (s : Scan) : Option (TokenT × Scan) := do
  let type ← v.control
  let s ← addCurCharToToken s
  return (type, s)

/-! ### Punctuation and comments -/

/-- The end of a `//` comment: behind the next newline, or at the NUL. -/
def skipLine : List Char → List Char
  | [] => []
  | c :: cur => if c == nul then c :: cur else if c == '\n' then cur else skipLine cur

/-- The end of a comment that `/*` opened: behind its `*/`, or at the NUL. -/
def skipBlock : List Char → List Char
  | [] => []
  | c :: cur =>
    if c == '*' then
      if deref cur == '/' then cur.tail else skipBlock cur
    else if c == nul then c :: cur
    else skipBlock cur

/-- What `formNextToken` leaves: the type it returns, where the token begins, and the cursor
with the token's length. -/
structure Formed where
  type : TokenT
  begin : List Char
  scan : Scan
  deriving DecidableEq, Repr

section Punc

variable (formNextToken : List Char → Option Formed) (begin : List Char) (s : Scan)

/-- The cases `*` and `=` of the switch, which every operator that may end in `=` falls into. -/
def caseAssign : Option Formed := do
  let s ← addCurCharToToken s
  if deref s.curPos == '=' then
    let s ← addCurCharToToken s
    return ⟨.ope, begin, s⟩
  else
    return ⟨.ope, begin, s⟩

/-- The cases `^`, `%`, `!` and `/`: a comment is skipped and the next token formed. -/
def caseComment : Option Formed := do
  let next ← derefNext s.curPos
  if next == '/' then
    formNextToken (skipLine (s.curPos.drop 2))
  else if next == '*' then
    formNextToken (skipBlock (s.curPos.drop 2))
  else
    caseAssign begin s

/-- The cases `+`, `&` and `|`: the operators of one character twice. -/
def caseRepeat : Option Formed := do
  let next ← derefNext s.curPos
  if next == deref s.curPos then
    let s ← addCurCharToToken s
    let s ← addCurCharToToken s
    return ⟨.ope, begin, s⟩
  else
    caseComment formNextToken begin s

/-- The case `-`: the operator `->`. -/
def caseMinus : Option Formed := do
  let next ← derefNext s.curPos
  if next == '>' then
    let s ← addCurCharToToken s
    let s ← addCurCharToToken s
    return ⟨.ope, begin, s⟩
  else
    caseRepeat formNextToken begin s

/-- The cases `>` and `<`: the operators of up to three characters. -/
def caseShift : Option Formed := do
  let first := deref s.curPos
  let s ← addCurCharToToken s
  if deref s.curPos == '=' then
    let s ← addCurCharToToken s
    return ⟨.ope, begin, s⟩
  else if deref s.curPos == first then
    let s ← addCurCharToToken s
    if deref s.curPos == '=' then
      let s ← addCurCharToToken s
      return ⟨.ope, begin, s⟩
    else
      return ⟨.ope, begin, s⟩
  else
    return ⟨.ope, begin, s⟩

/-- The case `.`: a floating number if a digit follows. -/
def casePoint : Option Formed := do
  let s ← addCurCharToToken s
  if isdigit (deref s.curPos) then
    let (type, s) ← formFloatToken s
    return ⟨type, begin, s⟩
  else
    return ⟨.ope, begin, s⟩

/-- The default case: the operators of one character. -/
def caseDefault : Option Formed := do
  let s ← addCurCharToToken s
  return ⟨.ope, begin, s⟩

/-- Punctuation, by its first character. -/
def formPuncToken : Option Formed :=
  match deref s.curPos with
  | '.' => casePoint begin s
  | '-' => caseMinus formNextToken begin s
  | '+' | '&' | '|' => caseRepeat formNextToken begin s
  | '^' | '%' | '!' | '/' => caseComment formNextToken begin s
  | '*' | '=' => caseAssign begin s
  | '>' | '<' => caseShift begin s
  | _ => caseDefault begin s

end Punc

/-- **The next token** from the cursor. The recursion through `formPuncToken` passes one comment
a time; `fuel` bounds the number of comments. -/
def formNextToken (v : Variant) : ℕ → List Char → Option Formed
  | 0, _ => none
  | fuel + 1, curPos =>
    let curPos := curPos.dropWhile isspace
    let s : Scan := ⟨curPos, 0⟩
    let formed (r : Option (TokenT × Scan)) : Option Formed :=
      r.map fun r => ⟨r.1, curPos, r.2⟩
    if deref curPos == '0' then formed (formOctalToken s)
    else if isdigit (deref curPos) then formed (formDecimalToken s)
    else if isalpha (deref curPos) then formed (formWordToken v s)
    else if ispunct (deref curPos) then formPuncToken (formNextToken v fuel) curPos s
    else if iscntrl (deref curPos) && deref curPos != nul then formed (formNextControlToken v s)
    else some ⟨v.zero, curPos, s⟩

/-! ### The tokenizer object -/

/-- The tokenizer: its copy of the string, the cursor, and the type of the current token. -/
structure TokenizerT where
  tokens : CString
  curPos : List Char
  type : TokenT
  deriving DecidableEq, Repr

/-- A tokenizer at the start of a string. The type is 0 from `calloc`. -/
def tkCreate (v : Variant) (ts : CString) : TokenizerT := ⟨ts, ts, v.zero⟩

def tkGetType (tk : TokenizerT) : TokenT := tk.type

/-- **The next token** as a string of its own, and none at the end. `strncpy` copies as many
characters as the token has. -/
def tkGetNextToken (v : Variant) (tk : TokenizerT) : Option (TokenizerT × Option CString) := do
  let f ← formNextToken v (tk.curPos.length + 1) tk.curPos
  let token := f.begin.take f.scan.length
  let tk := { tk with type := f.type, curPos := f.scan.curPos }
  return (tk, if deref token != nul then some token else none)

end Cs214.Tokenizer
