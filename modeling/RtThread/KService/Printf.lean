import RtThread.Lib.ByteMem
import RtThread.Lib.CString

/-!
# `rt_vsnprintf`

The formatter of `kservice.c`, as it is configured: `RT_PRINTF_PRECISION` is defined,
`RT_PRINTF_LONGLONG` and `RT_PRINTF_SPECIAL` are not. `int`, `long` and `rt_int32_t` have 32 bits
and wrap around. A conversion that finds no argument, or one of the wrong kind, has no result.

Every byte is written by `if (str <= end) *str = c; ++ str;`. The formatter is written over a sink
that takes bytes, so that the same code fills a buffer or collects the complete text; in one place
of `print_number` the code asks whether there is room left.
-/

namespace RtThread.Printf
open List

/-- A string, without the zero byte at its end. -/
structure CStr where
  bytes : List Byte
  nonzero : 0 ∉ bytes

/-- What `va_arg` may find: an `int` (or `long`, or a pointer to print), or a string. -/
inductive PrintArg
  | int (v : BitVec 32)
  | str (s : Option CStr)

/-- Where the bytes go: `if (str <= end) *str = c; ++ str;` and the test `str <= end` alone. -/
structure Sink (σ : Type) where
  emit : σ → Byte → σ
  room : σ → Bool

/-- The flags of a directive (`kservice.c:571-577`). -/
structure PrintFlags where
  zeropad : Bool
  sign : Bool
  plus : Bool
  space : Bool
  left : Bool
  special : Bool
  large : Bool
  deriving DecidableEq

inductive Qualifier
  | h | l
  deriving DecidableEq

theorem toInt_ofNat_of_lt {n : ℕ} (h : n < 2 ^ 31) : (BitVec.ofNat 32 n).toInt = n := by
  rw [BitVec.toInt_ofNat']
  exact Int.bmod_eq_of_le (by omega) (by omega)

theorem toInt_sub_one {k : BitVec 32} (h : -2 ^ 31 < k.toInt) : (k - 1#32).toInt = k.toInt - 1 := by
  have hlt := BitVec.toInt_lt (x := k)
  have hone : (1#32).toInt = 1 := by decide
  rw [BitVec.toInt_sub, hone]
  exact Int.bmod_eq_of_le (by omega) (by omega)

namespace Sink
variable {σ : Type} (S : Sink σ)
variable (o : σ) (c : Byte) (lo k : BitVec 32)

def emits (cs : List Byte) : σ := cs.foldl S.emit o

/-- `while (lo < k--) { if (str <= end) *str = c; ++ str; }`, with `k` afterwards. -/
def fillDown (o : σ) : BitVec 32 × σ :=
  ((if lo.toInt < k.toInt then lo else k) - 1#32,
    S.emits o (List.replicate (k.toInt - lo.toInt).toNat c))

/-- `while (--k > 0) { if (str <= end) *str = c; ++ str; }`, with `k` afterwards. -/
def fillPre (o : σ) : BitVec 32 × σ :=
  (if 0 < (k - 1#32).toInt then 0#32 else k - 1#32,
    S.emits o (List.replicate (k - 1#32).toInt.toNat c))

@[simp] theorem emits_nil : S.emits o [] = o := rfl

@[simp] theorem emits_cons (cs : List Byte) : S.emits o (c :: cs) = S.emits (S.emit o c) cs := rfl

theorem emits_append (cs cs' : List Byte) :
    S.emits o (cs ++ cs') = S.emits (S.emits o cs) cs' := foldl_append

theorem fillDown_eq (o : σ) : S.fillDown c lo k o =
      if lo.toInt < k.toInt then S.fillDown c lo (k - 1#32) (S.emit o c) else (k - 1#32, o) := by
  by_cases hlt : lo.toInt < k.toInt
  · have hle := BitVec.le_toInt lo
    have hsub := toInt_sub_one (k := k) (by omega)
    rw [if_pos hlt, fillDown, fillDown, if_pos hlt, hsub]
    have hcount : (k.toInt - lo.toInt).toNat = (k.toInt - 1 - lo.toInt).toNat + 1 := by omega
    rw [hcount, replicate_succ, emits_cons]
    congr 1
    split
    · rfl
    · have heq : lo = k - 1#32 := BitVec.eq_of_toInt_eq (by omega)
      rw [heq]
  · have hcount : (k.toInt - lo.toInt).toNat = 0 := by omega
    rw [if_neg hlt, fillDown, if_neg hlt, hcount, replicate_zero, emits_nil]

theorem fillPre_eq (o : σ) : S.fillPre c k o =
      if 0 < (k - 1#32).toInt then S.fillPre c (k - 1#32) (S.emit o c) else (k - 1#32, o) := by
  by_cases hlt : 0 < (k - 1#32).toInt
  · have hsub := toInt_sub_one (k := k - 1#32) (by omega)
    have hcount : (k - 1#32).toInt.toNat = ((k - 1#32).toInt - 1).toNat + 1 := by omega
    rw [if_pos hlt, fillPre, fillPre, if_pos hlt, hsub, hcount, replicate_succ, emits_cons]
    congr 1
    split
    · rfl
    · refine BitVec.eq_of_toInt_eq ?_
      rw [hsub, BitVec.toInt_zero]
      omega
  · have hcount : (k - 1#32).toInt.toNat = 0 := by omega
    rw [if_neg hlt, fillPre, if_neg hlt, hcount, replicate_zero, emits_nil]

end Sink

/-- `divide` (`:543-560`): the remainder, and the new `*n`. -/
def divide (n : BitVec 32) (base : ℕ) : BitVec 32 × BitVec 32 :=
  if base = 10 then (n % 10#32, n / 10#32) else (n % 16#32, n / 16#32)

def smallDigits : List Byte := "0123456789abcdef".toList.map Char.byte

def largeDigits : List Byte := "0123456789ABCDEF".toList.map Char.byte

/-- `while (num != 0) tmp[i++] = digits[divide(&num, base)];`, as far as `tmp` reaches. -/
def digitLoop (digits : List Byte) (base : ℕ) : ℕ → BitVec 32 → List Byte
  | 0, _ => []
  | free + 1, num =>
    if num = 0#32 then []
    else
      let (res, num) := divide num base
      digits.getD res.toNat 0 :: digitLoop digits base free num

/-- `tmp`, the digits of the number from the last one on. -/
def tmpDigits (large : Bool) (base : ℕ) (num : BitVec 32) : List Byte :=
  if num = 0#32 then ['0'.byte]
  else digitLoop (if large then largeDigits else smallDigits) base 16 num

/-- `sign`, and the number without it. -/
def getSign (type : PrintFlags) (num : BitVec 32) : Option Byte × BitVec 32 :=
  if type.sign then
    if num.toInt < 0 then (some '-'.byte, -num)
    else if type.plus then (some '+'.byte, num)
    else if type.space then (some ' '.byte, num)
    else (none, num)
  else (none, num)

/-- The part of `print_number` that writes (`:658-739`): `i` digits are in `tmp`, and `size`
is what is left of the field. -/
def writeNumber {σ : Type} (S : Sink σ) (o : σ) (zeropad left : Bool) (sign : Option Byte)
    (size precision : BitVec 32) (tmp : List Byte) : σ :=
  let i := BitVec.ofNat 32 tmp.length
  let (size, o) :=
    if ¬ zeropad ∧ ¬ left then
      S.fillDown ' '.byte 0#32 (if sign.isSome ∧ 0 < size.toInt then size - 1#32 else size) o
    else (size, o)
  let (size, o) :=
    match sign with
    | some sign => (if S.room o then size - 1#32 else size, S.emit o sign)
    | none => (size, o)
  -- no align to the left
  let (size, o) :=
    if ¬ left then S.fillDown (if zeropad then '0'.byte else ' '.byte) 0#32 size o else (size, o)
  let (_, o) := S.fillDown '0'.byte i precision o
  -- put number in the temporary buffer
  let o := S.emits o tmp.reverse
  (S.fillDown ' '.byte 0#32 size o).2

/-- `print_number` (`:581-740`). -/
def printNumber {σ : Type} (S : Sink σ) (o : σ) (num : BitVec 32) (base : ℕ)
    (s precision : BitVec 32) (type : PrintFlags) : σ :=
  let zeropad := if type.left then false else type.zeropad
  let (sign, num) := getSign type num
  let tmp := tmpDigits type.large base num
  let i := BitVec.ofNat 32 tmp.length
  let precision := if precision.toInt < i.toInt then i else precision
  writeNumber S o zeropad type.left sign (s - precision) precision tmp

/-- The flags of a directive, and what is left of `fmt`. -/
def getFlags (flags : PrintFlags) : List Byte → PrintFlags × List Byte
  | [] => (flags, [])
  | c :: fmt =>
    if c = '-'.byte then getFlags { flags with left := true } fmt
    else if c = '+'.byte then getFlags { flags with plus := true } fmt
    else if c = ' '.byte then getFlags { flags with space := true } fmt
    else if c = '#'.byte then getFlags { flags with special := true } fmt
    else if c = '0'.byte then getFlags { flags with zeropad := true } fmt
    else (flags, c :: fmt)

def isDigit (c : Byte) : Prop := (c.setWidth 32 - 48#32).toNat < 10

instance (c : Byte) : Decidable (isDigit c) := inferInstanceAs (Decidable (_ < _))

/-- `skip_atoi` (`:562-569`), from `i` on. -/
def skipAtoi (i : BitVec 32) : List Byte → BitVec 32 × List Byte
  | [] => (i, [])
  | c :: fmt =>
    if isDigit c then skipAtoi (i * 10#32 + c.setWidth 32 - 48#32) fmt else (i, c :: fmt)

/-- `va_arg(args, int)`. -/
def vaInt : List PrintArg → Option (BitVec 32 × List PrintArg)
  | .int v :: args => some (v, args)
  | _ => none

variable (flags : PrintFlags) (args : List PrintArg)

/-- The field width; a negative one given as argument counts as a flag. -/
def getWidth : List Byte → Option (PrintFlags × BitVec 32 × List Byte × List PrintArg)
  | [] => some (flags, -1, [], args)
  | c :: fmt =>
    if isDigit c then
      let (width, fmt) := skipAtoi 0#32 (c :: fmt)
      some (flags, width, fmt, args)
    else if c = '*'.byte then do
      let (width, args) ← vaInt args
      if width.toInt < 0 then some ({ flags with left := true }, -width, fmt, args)
      else some (flags, width, fmt, args)
    else some (flags, -1, c :: fmt, args)

/-- The precision behind the point. -/
def precisionValue : List Byte → Option (BitVec 32 × List Byte × List PrintArg)
  | [] => some (-1, [], args)
  | c :: fmt =>
    if isDigit c then
      let (precision, fmt) := skipAtoi 0#32 (c :: fmt)
      some (precision, fmt, args)
    else if c = '*'.byte then do
      let (precision, args) ← vaInt args
      some (precision, fmt, args)
    else some (-1, c :: fmt, args)

def getPrecision : List Byte → Option (BitVec 32 × List Byte × List PrintArg)
  | [] => some (-1, [], args)
  | c :: fmt =>
    if c = '.'.byte then do
      let (precision, fmt, args) ← precisionValue args fmt
      some (if precision.toInt < 0 then 0 else precision, fmt, args)
    else some (-1, c :: fmt, args)

def getQualifier : List Byte → Option Qualifier × List Byte
  | [] => (none, [])
  | c :: fmt =>
    if c = 'h'.byte then (some .h, fmt)
    else if c = 'l'.byte then (some .l, fmt)
    else (none, c :: fmt)

/-- What one round of the loop writes. -/
inductive Piece
  /-- a byte of `fmt`, or `%%` -/
  | literal (c : Byte)
  /-- `%c` -/
  | char (left : Bool) (width : BitVec 32) (c : Byte)
  /-- `%s` -/
  | string (left : Bool) (width precision : BitVec 32) (s : List Byte)
  /-- `%p`, `%o`, `%x`, `%X`, `%d`, `%i`, `%u` -/
  | number (num : BitVec 32) (base : ℕ) (width precision : BitVec 32) (flags : PrintFlags)
  /-- an unknown conversion, or the end of `fmt` -/
  | unknown (c : Option Byte)
  deriving DecidableEq

/-- `num`, by the qualifier. -/
def numberArg (qualifier : Option Qualifier) (flags : PrintFlags) (v : BitVec 32) : BitVec 32 :=
  if qualifier = some .h then
    if flags.sign then (v.setWidth 16).signExtend 32 else (v.setWidth 16).setWidth 32
  else v

def nullText : List Byte := "(NULL)".toList.map Char.byte

def integer (width precision : BitVec 32) (qualifier : Option Qualifier)
    (base : ℕ) (args : List PrintArg) : Option (Piece × List PrintArg) := do
  let (v, args) ← vaInt args
  some (.number (numberArg qualifier flags v) base width precision flags, args)

def conversion (width precision : BitVec 32) (qualifier : Option Qualifier)
    (c : Byte) (args : List PrintArg) : Option (Piece × List PrintArg) :=
  if c = 'c'.byte then do
    let (v, args) ← vaInt args
    some (.char flags.left width (v.setWidth 8), args)
  else if c = 's'.byte then
    match args with
    | .str s :: args =>
      some (.string flags.left width precision ((s.map CStr.bytes).getD nullText), args)
    | _ => none
  else if c = 'p'.byte then do
    let (v, args) ← vaInt args
    if width = -1 then some (.number v 16 8#32 precision { flags with zeropad := true }, args)
    else some (.number v 16 width precision flags, args)
  else if c = '%'.byte then some (.literal '%'.byte, args)
  else if c = 'o'.byte then integer flags width precision qualifier 8 args
  else if c = 'X'.byte then integer { flags with large := true } width precision qualifier 16 args
  else if c = 'x'.byte then integer flags width precision qualifier 16 args
  else if c = 'd'.byte ∨ c = 'i'.byte then
    integer { flags with sign := true } width precision qualifier 10 args
  else if c = 'u'.byte then integer flags width precision qualifier 10 args
  else some (.unknown (some c), args)

def noFlags : PrintFlags := ⟨false, false, false, false, false, false, false⟩

/-- A directive from behind its `%` on: what it writes, and what is left of `fmt` and of the
arguments. -/
def directive (fmt : List Byte) (args : List PrintArg) :
    Option (Piece × List Byte × List PrintArg) := do
  let (flags, fmt) := getFlags noFlags fmt
  let (flags, width, fmt, args) ← getWidth flags args fmt
  let (precision, fmt, args) ← getPrecision args fmt
  let (qualifier, fmt) := getQualifier fmt
  match fmt with
  | [] => some (.unknown none, [], args)
  | c :: fmt =>
    let (piece, args) ← conversion flags width precision qualifier c args
    some (piece, fmt, args)

namespace Sink
variable {σ : Type} (S : Sink σ)

def put (o : σ) : Piece → σ
  | .literal c => S.emit o c
  | .char left width c =>
    let (width, o) := if ¬ left then S.fillPre ' '.byte width o else (width, o)
    let o := S.emit o c
    (S.fillPre ' '.byte width o).2
  | .string left width precision s =>
    let len := BitVec.ofNat 32 s.length
    let len := if 0 < precision.toInt ∧ precision.toInt < len.toInt then precision else len
    let (width, o) := if ¬ left then S.fillDown ' '.byte len width o else (width, o)
    let o := S.emits o (s.take len.toInt.toNat)
    (S.fillDown ' '.byte len width o).2
  | .number num base width precision flags => printNumber S o num base width precision flags
  | .unknown c => S.emits (S.emit o '%'.byte) c.toList

/-- The loop of `rt_vsnprintf`. Each round takes at least one byte of `fmt`. -/
def format : ℕ → List Byte → List PrintArg → σ → Option σ
  | _, [], _, o => some o
  | 0, _ :: _, _, _ => none
  | rounds + 1, c :: fmt, args, o =>
    if c ≠ '%'.byte then format rounds fmt args (S.put o (.literal c))
    else do
      let (piece, fmt, args) ← directive fmt args
      format rounds fmt args (S.put o piece)

end Sink

/-- The memory and `str`. -/
structure OutBuf where
  mem : ByteMem
  str : BitVec 32

/-- The buffer that ends with the byte at `fin`, the `end` of the code. -/
def bufSink (fin : BitVec 32) : Sink OutBuf where
  emit o c := ⟨if o.str ≤ fin then Function.update o.mem o.str.toNat c else o.mem, o.str + 1#32⟩
  room o := decide (o.str ≤ fin)

/-- `rt_vsnprintf` (`:742-999`): the number it returns, and the memory. -/
def rtVsnprintf (mem : ByteMem) (buf size : BitVec 32) (fmt : CStr) (args : List PrintArg) :
    Option (BitVec 32 × ByteMem) := do
  let fin := buf + size - 1#32
  -- make sure end is always >= buf
  let fin := if fin < buf then 0xffffffff#32 else fin
  let o ← (bufSink fin).format fmt.bytes.length fmt.bytes args ⟨mem, buf⟩
  let mem := Function.update o.mem (if o.str ≤ fin then o.str.toNat else fin.toNat) 0
  some (o.str - buf, mem)

/-- A buffer without an end. -/
def textSink : Sink (List Byte) where
  emit text c := text ++ [c]
  room _ := true

def printText (fmt : CStr) (args : List PrintArg) : Option (List Byte) :=
  textSink.format fmt.bytes.length fmt.bytes args []

end RtThread.Printf
