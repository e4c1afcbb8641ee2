import RtThread.Lib.CString

/-!
# The tokens of a line

The scanner of `finsh_token.c`. A line is given without its zero byte. The scanner reads a character
at a time and can step back by one. At the end of the line it goes back to position 0 and raises
`eof`. An access outside of its buffers is a `Fault`.
-/

namespace RtThread.Finsh
open Buffer

/-- `FINSH_ERROR_*` (`finsh.h:87-101`). -/
inductive FinshError
  | ok
  | invalidToken
  | expectType
  | unknownType
  | variableExist
  | expectOperator
  | memoryFull
  | unknownOp
  | unknownNode
  | expectChar
  | unexpectEnd
  | unknownToken
  | noFloat
  | unknownSymbol
  | nullNode
  deriving DecidableEq

/-- Why a computation of the model has no result: a buffer is left, or the fuel is used up. -/
inductive Fault
  | outOfBounds
  | outOfFuel
  deriving DecidableEq

/-- `enum finsh_token_type` (`finsh_token.h:34-71`). -/
inductive TokenType
  | leftParen
  | rightParen
  | comma
  | semicolon
  | mul
  | add
  | inc
  | sub
  | dec
  | div
  | mod
  | assign
  | and
  | or
  | xor
  | bitwise
  | shl
  | shr
  | comments
  | void
  | char
  | short
  | int
  | long
  | unsigned
  | valueChar
  | valueInt
  | valueLong
  | valueString
  | valueNull
  | identifier
  | bad
  | eof
  deriving DecidableEq

def finshStringMax : Nat := 128

def newline : Byte := 0x0A
def doubleQuote : Byte := 0x22
def singleQuote : Byte := 0x27
def backslash : Byte := 0x5C

variable (ch : Byte)

def isAlpha : Bool := (ch ||| 0x20) - 'a'.byte < 26

def isDigit : Bool := '0'.byte ≤ ch && ch ≤ '9'.byte

def isXdigit : Bool := isDigit ch || (ch ||| 0x20) - 'a'.byte < 6

/-- A digit for `token_proc_escape` and for the octal numbers of `token_proc_number`. -/
def isOctal : Bool := ch - '0'.byte < 8

def isBinary : Bool := ch = '0'.byte || ch = '1'.byte

def isSeparator : Bool :=
  !('a'.byte ≤ ch && ch ≤ 'z'.byte || 'A'.byte ≤ ch && ch ≤ 'Z'.byte || isDigit ch || ch = '_'.byte)

def isSpace : Bool := ch = ' '.byte || ch = 0x09 || ch = 0x0D

/-- `finsh_name_table` (`finsh_token.c:49-61`). -/
def finshNameTable : List (List Char × TokenType) :=
  [(['v', 'o', 'i', 'd'], .void), (['c', 'h', 'a', 'r'], .char),
    (['s', 'h', 'o', 'r', 't'], .short), (['i', 'n', 't'], .int), (['l', 'o', 'n', 'g'], .long),
    (['u', 'n', 's', 'i', 'g', 'n', 'e', 'd'], .unsigned), (['N', 'U', 'L', 'L'], .valueNull),
    (['n', 'u', 'l', 'l'], .valueNull)]

/-- `token_match_name`: the keyword with this name. -/
def tokenMatchName (str : List Byte) : Option TokenType :=
  (finshNameTable.find? fun entry => entry.1.map Char.byte = str).map (·.2)

/-- `token_spec_number`. The second word of its accumulator does not enter the result. -/
def tokenSpecNumber (string : List Byte) (shift : Nat) : BitVec 32 :=
  string.foldl (fun v t =>
    let t :=
      if 'a'.byte ≤ t ∧ t ≤ 'f'.byte then t - 'a'.byte + 10
      else if 'A'.byte ≤ t ∧ t ≤ 'F'.byte then t - 'A'.byte + 10
      else t - '0'.byte
    (v <<< shift) ||| t.setWidth 32) 0

/-- `struct finsh_token` (`finsh.h:358-374`). `string` is what stands in front of the first zero
byte of the buffer. -/
structure Token where
  eof : Bool
  replay : Bool
  position : Nat
  currentToken : TokenType
  value : BitVec 32
  string : List Byte
  line : List Byte
  deriving DecidableEq

namespace Token

/-- `finsh_token_init`. No token is read before the first one is made. -/
def init (line : List Byte) : Token :=
  { eof := false, replay := false, position := 0, currentToken := .bad, value := 0,
    string := [], line }

variable (self : Token)

def nextChar : Byte × Token :=
  if self.eof then (0, self)
  else
    match self.line[self.position]? with
    | none => (0, { self with eof := true, position := 0 })
    | some ch =>
      if ch = newline then (0, { self with eof := true, position := 0 })
      else (ch, { self with position := self.position + 1 })

def prevChar : Token := if self.eof then self else { self with position := self.position - 1 }

/-- `while (p(ch)) ch = token_next_char(self)`: the characters that were passed, the one that ended
the loop, and the scanner. -/
def scan (p : Byte → Bool) : (fuel : Nat) → (ch : Byte) → (self : Token) → List Byte × Byte × Token
  | 0, ch, self => ([], ch, self)
  | fuel + 1, ch, self =>
    if p ch then
      let (chars, rest) := scan p fuel self.nextChar.1 self.nextChar.2
      (ch :: chars, rest)
    else ([], ch, self)

/-- A line has no more characters than that, and the byte at its end is in none of the classes. -/
def scanWhile (p : Byte → Bool) (ch : Byte) : List Byte × Byte × Token :=
  scan p (self.line.length + 1) ch self

def trimSpace : Token :=
  let (ch, self) := self.nextChar
  (self.scanWhile isSpace ch).2.2.prevChar

def getString : Except Fault Token :=
  let (ch, self) := self.nextChar
  if self.eof then .ok self
  else if isDigit ch then .ok { self.prevChar with string := [] }
  else
    let (chars, _, self) := self.scanWhile (fun ch => !isSeparator ch) ch
    if chars.length < finshStringMax then
      .ok { { self with eof := false }.prevChar with string := chars }
    else .error .outOfBounds

/-- The character of a character literal. The digits of an octal one go to a buffer of four bytes,
and the value is read behind them. -/
def charValue : Except Fault (Byte × Token) :=
  let (ch, self) := self.nextChar
  if ch = backslash then
    let (ch, self) := self.nextChar
    if ch = 'n'.byte then .ok (0x0A, self)
    else if ch = 't'.byte then .ok (0x09, self)
    else if ch = 'v'.byte then .ok (0x0B, self)
    else if ch = 'b'.byte then .ok (0x08, self)
    else if ch = 'r'.byte then .ok (0x0D, self)
    else if ch = backslash then .ok (backslash, self)
    else if ch = singleQuote then .ok (singleQuote, self)
    else
      let (digits, _, self) := self.scanWhile isDigit ch
      if digits.length < 4 then .ok (0, self.prevChar) else .error .outOfBounds
  else .ok (ch, self)

def procChar : Except Fault (Byte × Token × Option FinshError) := do
  let (ch, self) ← self.charValue
  let (last, self) := self.nextChar
  if last = singleQuote then .ok (ch, self, none) else .ok (ch, self.prevChar, some .expectChar)

def procEscape : Byte × Token :=
  let (ch, self) := self.nextChar
  if ch = 'n'.byte then (0x0A, self)
  else if ch = 't'.byte then (0x09, self)
  else if ch = 'v'.byte then (0x0B, self)
  else if ch = 'b'.byte then (0x08, self)
  else if ch = 'r'.byte then (0x0D, self)
  else if ch = 'f'.byte then (0x0C, self)
  else if ch = 'a'.byte then (0x07, self)
  else if ch = doubleQuote then (doubleQuote, self)
  else if ch = 'x'.byte ∨ ch = 'X'.byte then
    let (ch, self) := self.nextChar
    let (digits, _, self) := self.scanWhile isXdigit ch
    let digit ch := if ch < 'A'.byte then ch - '0'.byte else (ch ||| 0x20) - 'a'.byte + 10
    (digits.foldl (fun result ch => result * 16 + digit ch) 0, self.prevChar)
  else if isOctal ch then
    let (digits, _, self) := self.scanWhile isOctal ch
    (digits.foldl (fun result ch => result * 8 + (ch - '0'.byte)) 0, self.prevChar)
  else (0, self)

/-- The loop of `token_proc_string` with room for `n` more characters. A string that fills the
buffer is not terminated. -/
def procStringLoop : (n : Nat) → (written : List Byte) → (self : Token) → Token × Option FinshError
  | 0, written, self => ({ self with string := cstr written }, none)
  | n + 1, written, self =>
    let (ch, self) := self.nextChar
    if self.eof then ({ self with string := cstr written }, some .unexpectEnd)
    else if ch = backslash then
      procStringLoop n (written ++ [self.procEscape.1]) self.procEscape.2
    else if ch = doubleQuote then ({ self with string := cstr written }, none)
    else procStringLoop n (written ++ [ch]) self

def procString : Token × Option FinshError := procStringLoop finshStringMax [] self

variable (ch : Byte)

/-- The suffix of a number (`:551-562`). -/
def suffix : Token :=
  if ch = 'l'.byte ∨ ch = 'L'.byte then { self with currentToken := .valueLong } else self.prevChar

/-- A number of base 16, 8 or 2, whose digits go to a buffer of 128 bytes. -/
def procBased (shift : Nat) (p : Byte → Bool) (ch : Byte) : Except Fault Token :=
  let (digits, ch, self) := self.scanWhile p ch
  if digits.length < 128 then
    let value := tokenSpecNumber digits shift
    .ok ({ self with value, currentToken := .valueInt }.suffix ch)
  else .error .outOfBounds

def procNumber : Except Fault Token :=
  let (ch, self) := self.nextChar
  if ch = '0'.byte then
    let (ch, self) := self.nextChar
    if ch = 'x'.byte ∨ ch = 'X'.byte then
      self.nextChar.2.procBased 4 (fun ch => isDigit ch || isAlpha ch) self.nextChar.1
    else if ch = 'b'.byte ∨ ch = 'B'.byte then
      self.nextChar.2.procBased 1 isBinary self.nextChar.1
    else if isOctal ch then self.procBased 3 isOctal ch
    else .ok { self.prevChar with value := 0, currentToken := .valueInt }
  else
    let (digits, ch, self) := self.scanWhile isDigit ch
    let value := digits.foldl (fun value ch => value * 10 + (ch - '0'.byte).setWidth 32) 0
    .ok ({ self with value, currentToken := .valueInt }.suffix ch)

/-- An operator of one or two equal characters. -/
def double (two one : TokenType) : Token :=
  let (next, self) := self.nextChar
  if next = ch then { self with currentToken := two }
    else { self.prevChar with currentToken := one }

/-- The operators of a single character. -/
def tokenOfChar : Option TokenType :=
  if ch = '('.byte then some .leftParen
  else if ch = ')'.byte then some .rightParen
  else if ch = ','.byte then some .comma
  else if ch = ';'.byte then some .semicolon
  else if ch = '&'.byte then some .and
  else if ch = '*'.byte then some .mul
  else if ch = '|'.byte then some .or
  else if ch = '%'.byte then some .mod
  else if ch = '~'.byte then some .bitwise
  else if ch = '^'.byte then some .xor
  else if ch = '='.byte then some .assign
  else none

/-- The `switch` of `token_run` (`:170-311`) on the character `ch` that was read. -/
def procOperator : Except Fault (Token × Option FinshError) :=
  match tokenOfChar ch with
  | some type => .ok ({ self with currentToken := type }, none)
  | none =>
    if ch = '+'.byte then .ok (self.double ch .inc .add, none)
    else if ch = '-'.byte then .ok (self.double ch .dec .sub, none)
    else if ch = '/'.byte then .ok (self.double ch .eof .div, none)
    else if ch = '<'.byte then .ok (self.double ch .shl .bad, none)
    else if ch = '>'.byte then .ok (self.double ch .shr .bad, none)
    else if ch = singleQuote then do
      let (ch, self, error) ← self.procChar
      -- the other bytes of the union are kept
      let value := (self.value >>> 8 <<< 8) ||| ch.setWidth 32
      .ok ({ self with value, currentToken := .valueChar }, error)
    else if ch = doubleQuote then
      .ok ({ self.procString.1 with currentToken := .valueString }, self.procString.2)
    else if isDigit ch then do
      let self ← self.prevChar.procNumber
      .ok (self, none)
    else .ok ({ self with currentToken := .bad }, some .unknownToken)

/-- `token_run`: the next token, and the error that it sets. -/
def run : Except Fault (Token × Option FinshError) := do
  let self ← self.trimSpace.getString
  if self.eof then .ok ({ self with currentToken := .eof }, none)
  else if self.string ≠ [] then
    .ok ({ self with currentToken := (tokenMatchName self.string).getD .identifier }, none)
  else self.nextChar.2.procOperator self.nextChar.1

end Token
end RtThread.Finsh
