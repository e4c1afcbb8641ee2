import RtThread.KService.Printf

/-!
# The real-time clock

`ds1302z_rtc.c`, with any chip behind it. A byte crosses the line with its lowest bit first. The
first byte of a transfer is a command: its lowest bit asks for a read, and the others name a
register. The clock of the chip does not move between two calls.
-/

namespace RtThread.Rtc
open Printf
open List

/-- A chip: the eight bits that it answers to those of a command, and what it is after a command
with a byte behind it. -/
class Ds1302 (σ : Type*) where
  shiftOut : σ → List Bool → List Bool
  shiftIn : σ → List Bool → List Bool → σ

/-- A register is read, bit by bit, as it was written. -/
def Ds1302.Stores (σ : Type*) [Ds1302 σ] : Prop :=
  ∀ (chip : σ) (reg reg' data : List Bool), reg.length = 7 → reg'.length = 7 → data.length = 8 →
    shiftOut (shiftIn chip (false :: reg) data) (true :: reg') =
      if reg' = reg then data else shiftOut chip (true :: reg')

/-- Registers by the bits that name them. -/
abbrev Registers := List Bool → List Bool

instance : Ds1302 Registers where
  shiftOut chip cmd := chip cmd.tail
  shiftIn chip cmd data := Function.update chip cmd.tail data

theorem registers_stores : Ds1302.Stores Registers :=
  fun _ _ _ _ _ _ _ => Function.update_apply ..

/-- The loop of `ds1302_writebyte`: the bits that are clocked. -/
def writebyteLoop : ℕ → Byte → List Bool
  | 0, _ => []
  | n + 1, dat => decide (dat &&& 0x01 ≠ 0) :: writebyteLoop n (dat >>> 1)

def ds1302Writebyte (dat : Byte) : List Bool := writebyteLoop 8 dat

/-- `ds1302_readbyte`, on the bits that the line delivers. -/
def ds1302Readbyte (bits : List Bool) : Byte :=
  bits.foldl (fun dat bit => if bit then dat >>> 1 ||| 0x80 else dat >>> 1) 0

section
variable {σ : Type*} [Ds1302 σ] (chip : σ)

def ds1302Read (cmd : Byte) : Byte :=
  ds1302Readbyte (Ds1302.shiftOut chip (ds1302Writebyte cmd))

def ds1302Write (cmd data : Byte) : σ :=
  Ds1302.shiftIn chip (ds1302Writebyte cmd) (ds1302Writebyte data)

theorem readbyte_writebyte : ∀ dat, ds1302Readbyte (ds1302Writebyte dat) = dat := by decide +kernel

theorem ds1302Read_ds1302Write (hstores : Ds1302.Stores σ) {w r : Byte} (data : Byte)
    (hw : w &&& 1 = 0) (hr : r &&& 1 ≠ 0) :
    ds1302Read (ds1302Write chip w data) r =
      if (ds1302Writebyte r).tail = (ds1302Writebyte w).tail then data else ds1302Read chip r := by
  have hbits := hstores chip (ds1302Writebyte w).tail (ds1302Writebyte r).tail
    (ds1302Writebyte data) rfl rfl rfl
  have hwrite : ds1302Writebyte w = false :: (ds1302Writebyte w).tail := by
    simpa [ds1302Writebyte, writebyteLoop] using hw
  have hread : ds1302Writebyte r = true :: (ds1302Writebyte r).tail := by
    simpa [ds1302Writebyte, writebyteLoop] using hr
  rw [← hwrite, ← hread] at hbits
  rw [ds1302Read, ds1302Write, hbits, apply_ite ds1302Readbyte, readbyte_writebyte]
  rfl

/-- The text, if it fits in an array with its zero byte. -/
def fits (size : ℕ) (text : List Byte) : Option (List Byte) :=
  if text.length < size then some text else none

theorem percentD_nonzero : (0 : Byte) ∉ ['%'.byte, 'd'.byte] := by decide

/-- `"%d"`. -/
def percentD : CStr := ⟨['%'.byte, 'd'.byte], percentD_nonzero⟩

/-- `rt_sprintf(temp, "%d", v); strcat(datetime, temp);`. No end is given to `rt_sprintf`: it writes
the complete output. -/
def appendNumber (datetime : List Byte) (v : Byte) : Option (List Byte) := do
  let temp ← printText percentD [.int (v.setWidth 32)]
  let temp ← fits 5 temp
  fits 20 (datetime ++ temp)

/-- The nibbles that `rt_rtc_read` prints, from the year to the second. -/
def nibbles : List Byte :=
  let year := ds1302Read chip 0x8D
  let month := ds1302Read chip 0x89
  let day := ds1302Read chip 0x87
  let hour := ds1302Read chip 0x85
  let minute := ds1302Read chip 0x83
  let second := ds1302Read chip 0x81
  [year >>> 4 &&& 0x0f, year &&& 0x0f, month >>> 4 &&& 0x0f, month &&& 0x0f,
    day >>> 4 &&& 0x0f, day &&& 0x0f, hour >>> 4 &&& 0x07, hour &&& 0x0f,
    minute >>> 4 &&& 0x0f, minute &&& 0x0f, second >>> 4 &&& 0x0f, second &&& 0x0f]

/-- `rt_rtc_read`: the fourteen bytes that it delivers, unless `datetime` is left. -/
def rtRtcRead : Option (List Byte) := do
  let datetime ← (nibbles chip).foldlM appendNumber ['2'.byte, '0'.byte]
  some ((datetime ++ List.replicate (20 - datetime.length) 0).take 14)

/-- The text with one digit for each nibble. -/
def digitText : List Byte :=
  '2'.byte :: '0'.byte :: (nibbles chip).map ('0'.byte + ·)

theorem appendNumber_digit {datetime : List Byte} {v : Byte} (hv : v ≤ 9)
    (hfits : datetime.length + 1 < 20) :
    appendNumber datetime v = some (datetime ++ ['0'.byte + v]) := by
  have htext : ∀ v : Byte, v ≤ 9 →
      printText percentD [.int (v.setWidth 32)] = some ['0'.byte + v] := by decide +kernel
  simp [appendNumber, htext v hv, fits, hfits]

theorem foldlM_appendNumber (vs : List Byte) (datetime : List Byte) (hvs : ∀ v ∈ vs, v ≤ 9)
    (hfits : datetime.length + vs.length < 20) :
    vs.foldlM appendNumber datetime = some (datetime ++ vs.map ('0'.byte + ·)) := by
  induction vs generalizing datetime with
  | nil => simp
  | cons v vs ih =>
    rw [length_cons] at hfits
    rw [foldlM_cons, appendNumber_digit (hvs v (by simp)) (by omega)]
    refine (ih _ (fun v hv => hvs v (by simp [hv])) (by simp; omega)).trans ?_
    simp

theorem rtRtcRead_digits {chip : σ} (h : ∀ v ∈ nibbles chip, v ≤ 9) :
    rtRtcRead chip = some (digitText chip) := by
  rw [rtRtcRead, foldlM_appendNumber _ _ h (by simp [nibbles])]
  rfl

/-- Fourteen digits are delivered from within `datetime` if, and only if, no nibble is above 9. -/
theorem rtRtcRead_bounded_iff :
    (rtRtcRead chip = some (digitText chip) ∧ ∀ c ∈ digitText chip, '0'.byte ≤ c ∧ c ≤ '9'.byte) ↔
      ∀ v ∈ nibbles chip, v ≤ 9 := by
  have hdigit : ∀ v : Byte, '0'.byte ≤ '0'.byte + v ∧ '0'.byte + v ≤ '9'.byte ↔ v ≤ 9 := by
    decide +kernel
  constructor
  · rintro ⟨-, hdigits⟩ v hv
    refine (hdigit v).mp (hdigits _ ?_)
    simp only [digitText, mem_cons, mem_map]
    exact .inr (.inr ⟨v, hv, rfl⟩)
  · intro h
    refine ⟨rtRtcRead_digits h, ?_⟩
    intro c hc
    simp only [digitText, mem_cons, mem_map] at hc
    rcases hc with rfl | rfl | ⟨v, hv, rfl⟩
    · decide
    · decide
    · exact (hdigit v).mpr (h v hv)

/-- A chip that is absent reads as ones, and the numbers do not fit in `datetime`. -/
theorem absent_chip_leaves_datetime :
    rtRtcRead (fun _ => replicate 8 true : Registers) = none := by decide +kernel

/-- A field of `rt_rtc_write`. What is not copied to `datetime` is zero. -/
def field (datetime : List Byte) (i : ℕ) : Byte :=
  (((datetime.getD i 0).setWidth 32 - 0x30#32) <<< 4
    ||| ((datetime.getD (i + 1) 0).setWidth 32 - 0x30#32)).setWidth 8

def rtRtcWrite (buffer : List Byte) (size : ℕ) : σ :=
  let datetime := buffer.take size
  let chip := ds1302Write chip 0x8C (field datetime 2)
  let chip := ds1302Write chip 0x88 (field datetime 4)
  let chip := ds1302Write chip 0x86 (field datetime 6)
  let chip := ds1302Write chip 0x84 (field datetime 8)
  let chip := ds1302Write chip 0x82 (field datetime 10)
  ds1302Write chip 0x80 (field datetime 12)

/-- `set_time`, for a string without its zero byte. -/
def setTime (time : List Byte) : Int × σ :=
  if time.length ≠ 14 then (-1, chip) else (0, rtRtcWrite chip time 14)

/-- `apstime`: the bytes that it copies to a pointer that is not null. -/
def apstime : Option (List Byte) := rtRtcRead chip

/-- A number below 100 in two digits. -/
def twoDigits (n : ℕ) : List Byte :=
  ['0'.byte + BitVec.ofNat 8 (n / 10), '0'.byte + BitVec.ofNat 8 (n % 10)]

/-- `20YYMMDDhhmmss`. -/
def timeText (year month day hour minute second : ℕ) : List Byte :=
  ['2'.byte, '0'.byte] ++ twoDigits year ++ twoDigits month ++ twoDigits day ++ twoDigits hour
    ++ twoDigits minute ++ twoDigits second

/-- A number below 100 as a register holds it. -/
def bcd (n : ℕ) : Byte := field (twoDigits n) 0

theorem bcd_nibbles : ∀ n < 100, bcd n >>> 4 &&& 0x0f = BitVec.ofNat 8 (n / 10) ∧
    bcd n &&& 0x0f = BitVec.ofNat 8 (n % 10) ∧
    (n < 80 → bcd n >>> 4 &&& 0x07 = BitVec.ofNat 8 (n / 10)) ∧
    BitVec.ofNat 8 (n / 10) ≤ 9 ∧ BitVec.ofNat 8 (n % 10) ≤ 9 := by
  decide +kernel

theorem ds1302Read_rtRtcWrite (hstores : Ds1302.Stores σ) (year month day hour minute second : ℕ) :
    [0x8D, 0x89, 0x87, 0x85, 0x83, 0x81].map
      (ds1302Read (rtRtcWrite chip (timeText year month day hour minute second) 14))
        = [year, month, day, hour, minute, second].map bcd := by
  simp [rtRtcWrite, ds1302Read_ds1302Write _ hstores, ds1302Writebyte, writebyteLoop, bcd, field,
    timeText, twoDigits]

theorem nibbles_rtRtcWrite (hstores : Ds1302.Stores σ) {year month day hour minute second : ℕ}
    (hyear : year < 100) (hmonth : month < 100) (hday : day < 100) (hhour : hour < 80)
    (hminute : minute < 100) (hsecond : second < 100) :
    nibbles (rtRtcWrite chip (timeText year month day hour minute second) 14)
      = [year, month, day, hour, minute, second].flatMap fun n =>
        [BitVec.ofNat 8 (n / 10), BitVec.ofNat 8 (n % 10)] := by
  have hread := ds1302Read_rtRtcWrite chip hstores year month day hour minute second
  simp only [map_cons, map_nil, List.cons.injEq, and_true] at hread
  simp only [nibbles, hread, bcd_nibbles year hyear, bcd_nibbles month hmonth, bcd_nibbles day hday,
    (bcd_nibbles hour (by omega)).2.2.1 hhour, bcd_nibbles hour (by omega),
    bcd_nibbles minute hminute, bcd_nibbles second hsecond]
  rfl

/-- What `set_time` has written, `apstime` reads. -/
theorem apstime_setTime (hstores : Ds1302.Stores σ) {year month day hour minute second : ℕ}
    (hyear : year < 100) (hmonth : 1 ≤ month ∧ month ≤ 12) (hday : 1 ≤ day ∧ day ≤ 31)
    (hhour : hour < 24) (hminute : minute < 60) (hsecond : second < 60) :
    (setTime chip (timeText year month day hour minute second)).1 = 0 ∧
      apstime (setTime chip (timeText year month day hour minute second)).2
        = some (timeText year month day hour minute second) := by
  have hnibbles := nibbles_rtRtcWrite chip hstores hyear (by omega : month < 100)
    (by omega : day < 100) (by omega : hour < 80) (by omega : minute < 100)
    (by omega : second < 100)
  have hdigits : ∀ v ∈ nibbles (rtRtcWrite chip (timeText year month day hour minute second) 14),
      v ≤ 9 := by
    rw [hnibbles]
    have hfields : ∀ n ∈ [year, month, day, hour, minute, second], n < 100 := by simp; omega
    intro v hv
    obtain ⟨n, hn, hv⟩ := mem_flatMap.mp hv
    obtain ⟨-, -, -, hten, hone⟩ := bcd_nibbles n (hfields n hn)
    simp only [mem_cons, not_mem_nil, or_false] at hv
    rcases hv with rfl | rfl
    · exact hten
    · exact hone
  refine ⟨rfl, (rtRtcRead_digits hdigits).trans ?_⟩
  rw [digitText, hnibbles]
  rfl

end

theorem apstime_setTime_noon :
    apstime (setTime (fun _ => [] : Registers) (timeText 17 2 20 12 30 59)).2 =
      some (timeText 17 2 20 12 30 59) :=
  (apstime_setTime _ registers_stores (by decide) (by decide) (by decide) (by decide) (by decide)
    (by decide)).2

end RtThread.Rtc
