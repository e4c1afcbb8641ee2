import RtThread.Finsh.Vm
import Mathlib.Data.Int.Bitwise

/-!
# Integer expressions of C

What a line of integer arithmetic means in C: the tokens of a text, the grammar with its levels of
precedence, and the value of an expression with the store that it leaves. Values have 32 bits and
wrap around; operands are evaluated from the left to the right.
-/

namespace RtThread.Finsh

inductive StepOp
  | inc
  | dec
  deriving DecidableEq

/-- Integer expressions. A variable is given by its name. -/
inductive CExpr
  | literal (n : Nat)
  | var (x : List Byte)
  | plus (e : CExpr)
  | neg (e : CExpr)
  | compl (e : CExpr)
  | bin (op : BinOp) (l r : CExpr)
  | assign (x : List Byte) (e : CExpr)
  | pre (op : StepOp) (x : List Byte)
  | post (op : StepOp) (x : List Byte)

/-- The value of 32 bits that a number is cut to. -/
def wrap (n : Int) : Int := n.bmod (2 ^ 32)

/-- A bitwise operation on two values in two's complement. -/
def onBits (f : BitVec 32 → BitVec 32 → BitVec 32) (a b : Int) : Int :=
  (f (BitVec.ofInt 32 a) (BitVec.ofInt 32 b)).toInt

/-- A division that C defines. -/
def Divides (a b : Int) : Prop := b ≠ 0 ∧ ¬(a = -2 ^ 31 ∧ b = -1)

instance (a b : Int) : Decidable (Divides a b) := instDecidableAnd

/-- The value of a binary operator, where C defines it. -/
def BinOp.value (op : BinOp) (a b : Int) : Option Int :=
  match op with
  | add => some (wrap (a + b))
  | sub => some (wrap (a - b))
  | mul => some (wrap (a * b))
  | div => if Divides a b then some (a.tdiv b) else none
  | mod => if Divides a b then some (a.tmod b) else none
  | and => some (onBits (· &&& ·) a b)
  | or => some (onBits (· ||| ·) a b)
  | xor => some (onBits (· ^^^ ·) a b)
  | shl => if 0 ≤ b ∧ b < 32 then some (wrap (a * 2 ^ b.toNat)) else none
  | shr => if 0 ≤ b ∧ b < 32 then some (a >>> b.toNat) else none

def StepOp.value (op : StepOp) (a : Int) : Int :=
  match op with
  | inc => wrap (a + 1)
  | dec => wrap (a - 1)

namespace CExpr

def names : CExpr → List (List Byte)
  | literal _ => []
  | var x => [x]
  | plus e | neg e | compl e => e.names
  | bin _ l r => l.names ++ r.names
  | assign x e => x :: e.names
  | pre _ x => [x]
  | post _ x => [x]

/-- The value of an expression and the store after it, if all of its operators are defined on what
they are given. `place` tells which variable a name stands for. -/
def eval (place : List Byte → Nat) : CExpr → (Nat → Int) → Option (Int × (Nat → Int))
  | literal n, σ => some (n, σ)
  | var x, σ => some (σ (place x), σ)
  | plus e, σ => e.eval place σ
  | neg e, σ => do
    let (a, σ) ← e.eval place σ
    some (wrap (-a), σ)
  | compl e, σ => do
    let (a, σ) ← e.eval place σ
    some (-a - 1, σ)
  | bin op l r, σ => do
    let (a, σ) ← l.eval place σ
    let (b, σ) ← r.eval place σ
    let c ← op.value a b
    some (c, σ)
  | assign x e, σ => do
    let (a, σ) ← e.eval place σ
    some (a, Function.update σ (place x) a)
  | pre op x, σ =>
    some (op.value (σ (place x)), Function.update σ (place x) (op.value (σ (place x))))
  | post op x, σ => some (σ (place x), Function.update σ (place x) (op.value (σ (place x))))

end CExpr

inductive CToken
  | identifier (name : List Byte)
  | literal (digits : List Byte)
  | punct (type : TokenType)

def decimalValue (digits : List Byte) : Nat := digits.foldl (fun v d => v * 10 + (d.toNat - 48)) 0

def BinOp.token : BinOp → TokenType
  | add => .add
  | sub => .sub
  | div => .div
  | mod => .mod
  | mul => .mul
  | and => .and
  | or => .or
  | xor => .xor
  | shl => .shl
  | shr => .shr

/-- The level of a binary operator: the lower, the tighter it binds. -/
def BinOp.level : BinOp → Nat
  | mul | div | mod => 1
  | add => 2
  | sub => 2
  | shl => 3
  | shr => 3
  | and => 4
  | xor => 5
  | or => 6

def StepOp.token : StepOp → TokenType
  | inc => .inc
  | dec => .dec

/-- `Derives k e ts`: the tokens `ts` are the expression `e` at level `k`. Level 0 has the unary
operators, level 7 the assignments. Binary operators group from the left, assignments from the
right. -/
inductive Derives : (k : Nat) → (e : CExpr) → (ts : List CToken) → Prop
  | literal {digits : List Byte} (h : decimalValue digits < 2 ^ 31) :
    Derives 0 (.literal (decimalValue digits)) [.literal digits]
  | var (x : List Byte) : Derives 0 (.var x) [.identifier x]
  | post (op : StepOp) (x : List Byte) : Derives 0 (.post op x) [.identifier x, .punct op.token]
  | pre (op : StepOp) (x : List Byte) : Derives 0 (.pre op x) [.punct op.token, .identifier x]
  | plus {e : CExpr} {ts : List CToken} (h : Derives 0 e ts) :
    Derives 0 (.plus e) (.punct .add :: ts)
  | neg {e : CExpr} {ts : List CToken} (h : Derives 0 e ts) : Derives 0 (.neg e) (.punct .sub :: ts)
  | compl {e : CExpr} {ts : List CToken} (h : Derives 0 e ts) :
    Derives 0 (.compl e) (.punct .bitwise :: ts)
  | up {k : Nat} {e : CExpr} {ts : List CToken} (h : Derives k e ts) (hk : k < 7) :
    Derives (k + 1) e ts
  | bin {k : Nat} (op : BinOp) (hop : op.level = k + 1) {l r : CExpr} {ts us : List CToken}
    (hl : Derives (k + 1) l ts) (hr : Derives k r us) :
    Derives (k + 1) (.bin op l r) (ts ++ .punct op.token :: us)
  | assign (x : List Byte) {e : CExpr} {ts : List CToken} (h : Derives 7 e ts) :
    Derives 7 (.assign x e) (.identifier x :: .punct .assign :: ts)

def punctText : TokenType → List Char
  | .semicolon => [';']
  | .mul => ['*']
  | .add => ['+']
  | .inc => ['+', '+']
  | .sub => ['-']
  | .dec => ['-', '-']
  | .div => ['/']
  | .mod => ['%']
  | .assign => ['=']
  | .and => ['&']
  | .or => ['|']
  | .xor => ['^']
  | .bitwise => ['~']
  | .shl => ['<', '<']
  | .shr => ['>', '>']
  | _ => []

namespace CToken

def text : CToken → List Byte
  | identifier name => name
  | literal digits => digits
  | punct type => (punctText type).map Char.byte

/-- A name is made of letters, digits and underscores, does not start with a digit and is no
keyword. A literal is made of digits, and only the literal `0` starts with one. -/
def Valid : CToken → Prop
  | identifier name =>
    (∃ c cs, name = c :: cs ∧ isDigit c = false) ∧ (∀ c ∈ name, isSeparator c = false) ∧
      tokenMatchName name = none
  | literal digits =>
    (∀ d ∈ digits, isDigit d) ∧ (digits = ['0'.byte] ∨ ∃ d ds, digits = d :: ds ∧ d ≠ '0'.byte)
  | punct type => punctText type ≠ []

/-- A token ends where the next character cannot be a part of it. -/
def Ends (t : CToken) (rest : List Byte) : Prop :=
  match t with
  | identifier _ | literal _ => ∀ c ∈ rest.head?, isSeparator c
  | punct .add => rest.head? ≠ some '+'.byte
  | punct .sub => rest.head? ≠ some '-'.byte
  | punct .div => rest.head? ≠ some '/'.byte
  | punct _ => True

end CToken

/-- A text spells a list of tokens, with blanks in front of each of them. -/
inductive Spells : (ts : List CToken) → (text : List Byte) → Prop
  | nil {blanks : List Byte} (h : ∀ c ∈ blanks, isSpace c) : Spells [] blanks
  | cons {t : CToken} {ts : List CToken} {blanks rest : List Byte}
    (hblanks : ∀ c ∈ blanks, isSpace c)
    (hvalid : t.Valid) (hends : t.Ends rest) (h : Spells ts rest) :
    Spells (t :: ts) (blanks ++ (t.text ++ rest))

end RtThread.Finsh
