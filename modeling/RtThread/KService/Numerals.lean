import RtThread.Lib.Numeral
import RtThread.KService.PrintfLength

/-!
# The numerals that `rt_vsnprintf` prints

`divide` knows the bases 10 and 16 only, so that `%o` prints hexadecimal digits. The other integer
conversions print the canonical numeral of their argument, `%o` only that of a number with one
digit.
-/

namespace RtThread.Printf
open BitVec
open List

theorem NumberLayout.tail_of_nonpos {l : NumberLayout} {size : BitVec 32}
    (hlo : -2 ^ 31 < size.toInt) (hhi : size.toInt ≤ 0)
    (hprecision : l.precision.toInt ≤ (BitVec.ofNat 32 l.tmp.length).toInt) :
    l.tail size = l.tmp.reverse := by
  have hsub := toInt_sub_one hlo
  have hsize : size.toInt.toNat = 0 := by omega
  have hrest : (size - 1#32).toInt.toNat = 0 := by omega
  have hdigits : (l.precision.toInt - (BitVec.ofNat 32 l.tmp.length).toInt).toNat = 0 := by omega
  have hpos : ¬ 0 < size.toInt := by omega
  rw [tail, hdigits, if_neg hpos, hsize]
  by_cases hleft : l.left = true
  · rw [if_neg (not_not.mpr hleft), if_neg (not_not.mpr hleft), hsize]
    simp
  · rw [if_pos hleft, if_pos hleft, hrest]
    simp

/-- Without a field width there is nothing to pad. -/
theorem put_number {σ : Type} (S : Sink σ) (o : σ) (num : BitVec 32) (base : ℕ)
    {flags : PrintFlags} (hleft : flags.left = false) (hzeropad : flags.zeropad = false) :
    S.put o (.number num base (-1) (-1) flags) = S.emits o ((getSign flags num).1.toList ++
        (tmpDigits flags.large base (getSign flags num).2).reverse) := by
  obtain ⟨l, hl⟩ : ∃ l, l = numberLayout num base (-1) (-1) flags := ⟨_, rfl⟩
  have hsign : l.sign = (getSign flags num).1 := by rw [hl]; rfl
  have htmp : l.tmp = tmpDigits flags.large base (getSign flags num).2 := by rw [hl]; rfl
  have hlength : l.tmp.length ≤ 16 := htmp ▸ (length_tmpDigits _ _ _).2
  have hdigits : (BitVec.ofNat 32 l.tmp.length).toInt = l.tmp.length :=
    toInt_ofNat_of_lt (by omega)
  have hminus : (-1 : BitVec 32).toInt = -1 := by decide
  have hprecision : l.precision = BitVec.ofNat 32 l.tmp.length := by
    have hlt : (-1 : BitVec 32).toInt < (BitVec.ofNat 32 l.tmp.length).toInt := by omega
    rw [hl] at hlt ⊢
    exact if_pos hlt
  have hsize : l.size.toInt = -1 - l.tmp.length := by
    have hsub : l.size = -1 - l.precision := by rw [hl]; rfl
    rw [hsub, hprecision, toInt_sub, hdigits, hminus]
    exact Int.bmod_eq_of_le (by omega) (by omega)
  have hfield : l.field = l.size := if_neg fun h => by omega
  have hpad : ¬ l.zeropad ∧ ¬ l.left := by
    rw [hl]
    simp [numberLayout, hleft, hzeropad]
  have hlead : l.lead = [] := by
    have hnone : l.size.toInt.toNat = 0 := by omega
    rw [NumberLayout.lead, if_pos hpad, hfield, hnone]
    rfl
  have hat : l.sizeAtSign.toInt = l.size.toInt - 1 := by
    rw [NumberLayout.sizeAtSign, if_pos hpad, hfield, if_neg (by omega), toInt_sub_one (by omega)]
  have hsub := toInt_sub_one (k := l.sizeAtSign) (by omega)
  -- whether the sign is counted or not
  have htail : l.tail l.sizeAtSign = l.tmp.reverse :=
    NumberLayout.tail_of_nonpos (by omega) (by omega) (by rw [hprecision])
  have htail' : l.tail (l.sizeAtSign - 1#32) = l.tmp.reverse :=
    NumberLayout.tail_of_nonpos (by omega) (by omega) (by rw [hprecision])
  have hrest : ∀ fits, l.rest fits = l.sign.toList ++ l.tmp.reverse := by
    intro fits
    rw [NumberLayout.rest]
    cases l.sign <;> cases fits <;> simp [htail, htail']
  rw [put_eq_emits, Piece.lead, Piece.rest, ← hl, hlead, nil_append, hrest, hsign, htmp]

/-- The base that `divide` divides by. -/
def radix (base : ℕ) : ℕ := if base = 10 then 10 else 16

theorem digitLoop_eq (digits : List Byte) (base : ℕ) {free : ℕ} {num : BitVec 32}
    (h : num.toNat < radix base ^ free) :
    digitLoop digits base free num = ((radix base).digits num.toNat).map (digits.getD · 0) := by
  have hradix : 1 < radix base := by
    rw [radix]
    split <;> decide
  have hdivide : ∀ n : BitVec 32, (divide n base).1.toNat = n.toNat % radix base ∧
      (divide n base).2.toNat = n.toNat / radix base := by
    intro n
    rw [divide, radix]
    split <;> exact ⟨rfl, rfl⟩
  induction free generalizing num with
  | zero =>
    have hzero : num.toNat = 0 := by simpa using h
    rw [hzero, Nat.digits_zero]
    rfl
  | succ free ih =>
    rw [digitLoop]
    split
    · rename_i hzero
      rw [hzero]
      simp
    · rename_i hne
      have hpos : 0 < num.toNat := by bv_omega
      obtain ⟨hmod, hdiv⟩ := hdivide num
      have hrest : (divide num base).2.toNat < radix base ^ free := by
        rw [hdiv]
        exact Nat.div_lt_of_lt_mul (by rwa [Nat.pow_succ'] at h)
      rw [Nat.digits_def' hradix hpos, map_cons, ← hmod, ← hdiv, ← ih hrest]

theorem tmpDigits_reverse (large : Bool) (base : ℕ) (num : BitVec 32) :
    (tmpDigits large base num).reverse =
      Numeral.ofNat (radix base) ((if large then largeDigits else smallDigits).getD · 0)
        num.toNat := by
  rw [tmpDigits, Numeral.ofNat]
  by_cases hzero : num = 0#32
  · rw [if_pos hzero, if_pos (by simp [hzero])]
    cases large <;> rfl
  · have hne : num.toNat ≠ 0 := by bv_omega
    have hradix : 10 ≤ radix base := by
      rw [radix]
      split <;> decide
    have hfits : num.toNat < radix base ^ 16 :=
      calc num.toNat < 10 ^ 16 := by omega
        _ ≤ radix base ^ 16 := Nat.pow_le_pow_left hradix 16
    rw [if_neg hzero, if_neg hne, digitLoop_eq _ _ hfits]

/-- `%d`, `%i`, `%u`, `%o`, `%x` and `%X`. -/
inductive IntConversion
  | d | i | u | o | x | X
  deriving DecidableEq

namespace IntConversion

def char : IntConversion → Byte
  | d => 'd'.byte
  | i => 'i'.byte
  | u => 'u'.byte
  | o => 'o'.byte
  | x => 'x'.byte
  | X => 'X'.byte

variable (c : IntConversion)

def format : CStr := ⟨['%'.byte, c.char], by cases c <;> decide⟩

def base : IntConversion → ℕ
  | d | i | u => 10
  | o => 8
  | x | X => 16

/-- The number that the argument stands for. -/
def value (v : BitVec 32) : IntConversion → ℤ
  | d | i => v.toInt
  | u | o | x | X => v.toNat

/-- The digits it is to be written with. -/
def digit : IntConversion → ℕ → Byte
  | X => (largeDigits.getD · 0)
  | d | i | u | o | x => (smallDigits.getD · 0)

/-- The value of a digit in the base of the conversion. -/
def digitValue (b : Byte) : Option ℕ :=
  let n := b.toNat
  let d := if 48 ≤ n ∧ n ≤ 57 then n - 48
    else if 65 ≤ n ∧ n ≤ 70 then n - 55
    else if 97 ≤ n ∧ n ≤ 102 then n - 87
    else 16
  if d < c.base then some d else none

/-- Reads a numeral in the base of the conversion. -/
def parse (text : List Byte) : Option ℤ :=
  Numeral.parse c.base c.digitValue '-'.byte text

/-- The flags with which `print_number` is called. -/
def flags : IntConversion → PrintFlags
  | d | i => { noFlags with sign := true }
  | X => { noFlags with large := true }
  | u | o | x => noFlags

theorem pieces_format (v : BitVec 32) :
    pieces 2 c.format.bytes [.int v] = some [.number v c.base (-1) (-1) c.flags] := by
  cases c <;> rfl

end IntConversion

theorem getSign_flags (c : IntConversion) (v : BitVec 32) :
    (getSign c.flags v).1.toList = (if c.value v < 0 then ['-'.byte] else []) ∧
      (getSign c.flags v).2.toNat = (c.value v).natAbs := by
  have hint := toInt_eq_toNat_cond v
  cases c with
  | d | i =>
    by_cases hneg : v.toInt < 0
    · -- the smallest number is its own negation, which is right without a sign
      have hneg' : (-v).toNat = v.toInt.natAbs := by
        rw [toNat_neg]
        omega
      simpa [getSign, IntConversion.flags, IntConversion.value, noFlags, hneg] using hneg'
    · have hpos : v.toNat = v.toInt.natAbs := by omega
      simpa [getSign, IntConversion.flags, IntConversion.value, noFlags, hneg] using hpos
  | u | o | x | X =>
    have hpos : ¬ (v.toNat : ℤ) < 0 := by omega
    simp [getSign, IntConversion.flags, IntConversion.value, noFlags, hpos]

namespace IntConversion

theorem radix_base {c : IntConversion} (hc : c ≠ .o) : radix c.base = c.base := by
  cases c with
  | o => exact absurd rfl hc
  | d | i | u | x | X => rfl

variable (c : IntConversion) (v : BitVec 32)

theorem digits_flags :
    ((if c.flags.large then largeDigits else smallDigits).getD · 0) = c.digit := by
  cases c <;> rfl

/-- What is printed: the numeral in the base that `divide` divides by. -/
def printed : List Byte := Numeral.ofInt (radix c.base) c.digit '-'.byte (c.value v)

theorem printed_eq : c.printed v = (getSign c.flags v).1.toList ++
      (tmpDigits c.flags.large c.base (getSign c.flags v).2).reverse := by
  obtain ⟨hsign, hnum⟩ := getSign_flags c v
  rw [printed, Numeral.ofInt_eq_append, hsign, tmpDigits_reverse, hnum, digits_flags]

theorem one_lt_base : 1 < c.base := by cases c <;> decide

theorem length_printed : (c.printed v).length ≤ 11 := by
  have hint := toInt_eq_toNat_cond v
  have hdigits : (Numeral.ofNat (radix c.base) c.digit (c.value v).natAbs).length ≤ 10 := by
    refine Numeral.length_ofNat (by cases c <;> decide) (by decide) ?_
    cases c with
    | d | i => change v.toInt.natAbs < 10 ^ 10; omega
    | u => change v.toNat < 10 ^ 10; omega
    | o | x | X => change v.toNat < 16 ^ 10; omega
  rw [printed, Numeral.ofInt]
  split
  · rw [length_cons]
    omega
  · omega

variable {c v}

/-- A number with one octal digit is the same in both bases. -/
theorem printed_of_numeral (hoct : c = .o → v.toNat < 8) :
    c.printed v = Numeral.ofInt c.base c.digit '-'.byte (c.value v) := by
  by_cases hc : c = .o
  · subst hc
    have hlt : (value v .o).natAbs < base .o := hoct rfl
    have hlt' : (value v .o).natAbs < radix (base .o) := Nat.lt_trans hlt (by decide)
    rw [printed, Numeral.ofInt_eq_append, Numeral.ofInt_eq_append, Numeral.ofNat_of_lt hlt',
      Numeral.ofNat_of_lt hlt]
  · rw [printed, radix_base hc]

theorem numeral_printed_iff :
    (Numeral.Canonical c.base c.digit '-'.byte (c.value v) (c.printed v) ∧
      c.parse (c.printed v) = some (c.value v)) ↔ (c = .o → v.toNat < 8) := by
  constructor
  · rintro ⟨-, hparse⟩ rfl
    by_contra hlarge
    refine Numeral.parse_ofInt_ne (by decide) (by decide) (by decide) ?_ hparse
    change (8 : ℤ) ≤ v.toNat
    omega
  · intro hoct
    rw [printed_of_numeral hoct]
    exact ⟨Numeral.canonical_ofInt c.one_lt_base _, Numeral.parse_ofInt c.one_lt_base
      (by cases c <;> decide) (by cases c <;> decide) _⟩

end IntConversion

/-- The text is the canonical numeral of the argument and is read back as the argument, if and only
if the conversion is not `%o` or the number has one octal digit. -/
theorem rtVsnprintf_numeral (c : IntConversion) (v : BitVec 32)
    (mem : ByteMem) (buf size : BitVec 32) (hsize : 12 ≤ size.toNat)
    (hfits : buf.toNat + size.toNat ≤ 2 ^ 32) :
    ∃ text, rtVsnprintf mem buf size c.format [.int v] =
        some (BitVec.ofNat 32 text.length, mem.store buf.toNat (text ++ [0])) ∧
      ((Numeral.Canonical c.base c.digit '-'.byte (c.value v) text ∧
        c.parse text = some (c.value v)) ↔ (c = .o → v.toNat < 8)) := by
  obtain ⟨text, htext⟩ : ∃ text, text = c.printed v := ⟨_, rfl⟩
  have hlength : text.length ≤ 11 := htext ▸ c.length_printed v
  refine ⟨text, ?_, htext ▸ IntConversion.numeral_printed_iff⟩
  obtain ⟨fin, hfin, heq⟩ := rtVsnprintf_eq mem c.format [.int v] (by omega) hfits
  rw [show c.format.bytes.length = 2 from rfl, c.pieces_format] at heq
  have hput : (bufSink fin).put ⟨mem, buf⟩ (.number v c.base (-1) (-1) c.flags) =
      (bufSink fin).emits ⟨mem, buf⟩ text := by
    rw [htext, c.printed_eq]
    exact put_number _ _ _ _ (by cases c <;> rfl) (by cases c <;> rfl)
  have hend := (printed_nil mem buf (by omega)).emits hfin text (by omega)
  rw [nil_append] at hend
  have hlast := hend.last hfin (by omega)
  have hmem := hend.mem
  rw [Nat.min_eq_left (by omega)] at hlast
  rw [take_of_length_le (by omega)] at hmem
  have hstr : ((bufSink fin).emits ⟨mem, buf⟩ text).str - buf = BitVec.ofNat 32 text.length := by
    rw [bufSink_emits_str, BitVec.add_comm, BitVec.add_sub_cancel]
  simp only [Option.map_some, foldl_cons, foldl_nil, hput, hlast, hstr, hmem] at heq
  rw [heq, ByteMem.store_append_singleton]

/-- The smallest number. -/
theorem rtVsnprintf_numeral_min : ∃ text,
    rtVsnprintf (fun _ => 0xff) 0x20000000 12 (IntConversion.format .d) [.int 0x80000000#32] =
      some (BitVec.ofNat 32 text.length, ByteMem.store (fun _ => 0xff) 0x20000000 (text ++ [0])) ∧
    IntConversion.parse .d text = some (-2147483648) := by
  obtain ⟨text, heq, hnumeral⟩ := rtVsnprintf_numeral .d 0x80000000#32 (fun _ => 0xff)
    0x20000000 12 (by decide) (by decide)
  exact ⟨text, heq, (hnumeral.mpr (by simp)).2⟩

/-- `%o` prints 8 as `8`, which is no octal numeral. -/
theorem rtVsnprintf_octal_eight : ∃ r mem',
    rtVsnprintf (fun _ => 0) 0x20000000 12 (IntConversion.format .o) [.int 8] = some (r, mem') ∧
      mem' 0x20000000 = '8'.byte ∧ mem' 0x20000001 = 0 ∧
      IntConversion.parse .o ['8'.byte] = none := by
  have hbytes : (rtVsnprintf (fun _ => 0) 0x20000000 12 (IntConversion.format .o) [.int 8]).map
      (fun p => (p.2 0x20000000, p.2 0x20000001)) = some ('8'.byte, 0) := by decide +kernel
  obtain ⟨⟨r, mem'⟩, heq, hbytes⟩ := Option.map_eq_some_iff.mp hbytes
  obtain ⟨hdigit, hend⟩ := Prod.mk.inj hbytes
  exact ⟨r, mem', heq, hdigit, hend, by decide⟩

end RtThread.Printf
