import RtThread.Lib.LossyRing
import RtThread.Lib.Run

/-!
# Receiving in interrupts

The receive FIFO of a serial device (`serial.c`) in the mode `RT_DEVICE_FLAG_INT_RX`. The interrupt
stores the bytes that have come, the reader takes them out, and both move `get_index`. The steps are
the sections with interrupts disabled.

The specification is a queue that keeps the newest unread bytes, and from which a reader takes bytes
until it has those it wants or none is unread. The code answers every call as the queue does.
-/

namespace RtThread
open Nat
open BitVec
open List
open Function (update)

/-- `struct rt_serial_rx_fifo` (`serial.h:119-125`). -/
structure RxFifo where
  buffer : Nat → BitVec 8
  putIndex : BitVec 16
  getIndex : BitVec 16

namespace RxFifo
variable (bufsz : BitVec 16) (fifo : RxFifo)

/-- The FIFO of `rt_serial_open` (`serial.c:404-410`). -/
def cleared : RxFifo := ⟨fun _ => 0, 0, 0⟩

/-- `index += 1; if (index >= serial->config.bufsz) index = 0;` -/
def moveOn (index : BitVec 16) : BitVec 16 := if bufsz ≤ index + 1 then 0 else index + 1

/-- The length that is reported to `rx_indicate` (`:712-713`). The indices are promoted to
`int`, and the result is converted to `rt_size_t`. -/
def rxLength : BitVec 32 :=
  let put := fifo.putIndex.setWidth 32
  let get := fifo.getIndex.setWidth 32
  if get ≤ put then put - get else bufsz.setWidth 32 - (get - put)

/-- One byte in `rt_hw_serial_isr` (`:690-699`). -/
def receive (ch : BitVec 8) : RxFifo :=
  let fifo := { fifo with
    buffer := update fifo.buffer fifo.putIndex.toNat ch
    putIndex := moveOn bufsz fifo.putIndex }
  if fifo.putIndex = fifo.getIndex then
    { fifo with getIndex := moveOn bufsz fifo.getIndex }
  else fifo

/-- One byte in `_serial_int_rx` (`:114-125`), if there is one. -/
def take : Option (BitVec 8) × RxFifo :=
  if fifo.getIndex ≠ fifo.putIndex then
    (some (fifo.buffer fifo.getIndex.toNat), { fifo with getIndex := moveOn bufsz fifo.getIndex })
  else (none, fifo)

variable {bufsz fifo}

theorem rxLength_eq {count : Nat} (hget : fifo.getIndex ≤ bufsz) (hcount : count < bufsz.toNat)
    (hput : fifo.putIndex.toNat = (fifo.getIndex.toNat + count) % bufsz.toNat) :
    (fifo.rxLength bufsz).toNat = count := by
  rw [le_def] at hget
  rw [RingBuffer.mod_eq_ite] at hput
  rw [rxLength]
  split at hput
  · rw [if_pos (by bv_omega)]
    bv_omega
  · rw [if_neg (by bv_omega)]
    bv_omega

variable (bufsz fifo)

/-- The fields of the FIFO are those of the ring. -/
structure Holds {n : Nat} (r : LossyRing (BitVec 8) n) : Prop where
  size : bufsz.toNat = n
  buffer : fifo.buffer = r.cell
  putIndex : fifo.putIndex.toNat = r.last
  getIndex : fifo.getIndex.toNat = r.first

variable {bufsz fifo} {n : Nat} {r : LossyRing (BitVec 8) n}

section
variable (h : fifo.Holds bufsz r)
include h

theorem Holds.putIndex_lt : fifo.putIndex < bufsz := by
  rw [lt_def, h.putIndex, h.size]
  exact r.last_lt

theorem Holds.getIndex_lt : fifo.getIndex < bufsz := by
  rw [lt_def, h.getIndex, h.size]
  exact r.first_lt

theorem Holds.moveOn {i : BitVec 16} (hi : i.toNat < n) :
    (moveOn bufsz i).toNat = (i.toNat + 1) % n := by
  rw [RxFifo.moveOn, RingBuffer.toNat_advance (by rw [h.size]; exact hi), h.size,
    RingBuffer.advance_eq_mod hi]

theorem Holds.rxLength : (fifo.rxLength bufsz).toNat = r.items.length := by
  rw [r.length_items]
  refine rxLength_eq (BitVec.le_of_lt h.getIndex_lt) ?_ ?_
  · rw [h.size]
    exact r.count_lt
  · rw [h.size, h.getIndex, h.putIndex, r.last_eq]

/-- The indices are equal if there is nothing between them, or if the ring is full. -/
theorem Holds.receive (ch : BitVec 8) : (fifo.receive bufsz ch).Holds bufsz (r.put ch) := by
  have hfirst := r.first_lt
  have hcount := r.count_lt
  have hput := h.moveOn (by rw [h.putIndex]; exact r.last_lt)
  have hget := h.moveOn (by rw [h.getIndex]; exact r.first_lt)
  rw [h.putIndex, ← r.put_last ch] at hput
  rw [h.getIndex] at hget
  have hbuffer : update fifo.buffer fifo.putIndex.toNat ch = (r.put ch).cell := by
    rw [h.buffer, h.putIndex, r.put_cell]
  have hfull : RxFifo.moveOn bufsz fifo.putIndex = fifo.getIndex ↔ ¬ r.count + 1 < n := by
    rw [← toNat_inj, hput, h.getIndex, r.put_last, r.last_eq, mod_add_mod, add_assoc]
    constructor
    · intro heq hroom
      have hzero : r.count + 1 = 0 := by
        refine r.index_inj hroom (by omega) ?_
        rw [heq, add_zero, mod_eq_of_lt hfirst]
      omega
    · intro hroom
      rw [show r.count + 1 = n by omega, add_mod_right, mod_eq_of_lt hfirst]
  rw [RxFifo.receive]
  split
  · rename_i heq
    refine ⟨h.size, hbuffer, hput, ?_⟩
    rw [r.put_first, if_neg (hfull.mp heq)]
    exact hget
  · rename_i hne
    refine ⟨h.size, hbuffer, hput, ?_⟩
    rw [r.put_first, if_pos (not_not.mp fun hroom => hne (hfull.mpr hroom))]
    exact h.getIndex

theorem Holds.take : (fifo.take bufsz).1 = r.items.head? ∧
      ∃ r' : LossyRing (BitVec 8) n, (fifo.take bufsz).2.Holds bufsz r' ∧
        r'.items = r.items.tail := by
  have hempty : fifo.getIndex ≠ fifo.putIndex ↔ 0 < r.count := by
    have hfirst := r.first_lt
    rw [ne_eq, ← toNat_inj, h.getIndex, h.putIndex, r.last_eq]
    constructor
    · intro hne
      by_contra hzero
      rw [show r.count = 0 by omega, add_zero, mod_eq_of_lt hfirst] at hne
      exact hne rfl
    · intro hpos heq
      have hzero : r.count = 0 := by
        refine r.index_inj r.count_lt (by omega) ?_
        rw [← heq, add_zero, mod_eq_of_lt hfirst]
      omega
  rw [RxFifo.take]
  split
  · rename_i hne
    have hpos := hempty.mp hne
    have hpop := r.items_pop hpos
    have hget := h.moveOn (by rw [h.getIndex]; exact r.first_lt)
    refine ⟨?_, r.skip 1 hpos, ⟨h.size, h.buffer, h.putIndex, ?_⟩, ?_⟩
    · rw [hpop, h.buffer, h.getIndex]
      rfl
    · rw [hget, h.getIndex]
      rfl
    · rw [r.items_skip, drop_one]
  · rename_i heq
    have hnil : r.items = [] := by
      rw [← length_eq_zero_iff, r.length_items]
      exact Nat.eq_zero_of_not_pos fun hpos => heq (hempty.mpr hpos)
    exact ⟨by rw [hnil]; rfl, r, h, by rw [hnil]; rfl⟩

end

/-- The bytes that can be read from the FIFO. -/
def Unread (bufsz : BitVec 16) (fifo : RxFifo) (items : List (BitVec 8)) : Prop :=
  ∃ r : LossyRing (BitVec 8) bufsz.toNat, fifo.Holds bufsz r ∧ r.items = items

variable {items : List (BitVec 8)}

theorem unread_cleared (hsize : 0 < bufsz.toNat) : Unread bufsz cleared [] :=
  ⟨.empty (fun _ => 0) hsize, ⟨rfl, rfl, rfl, rfl⟩, rfl⟩

section
variable (h : Unread bufsz fifo items)
include h

theorem Unread.receive (bytes : List (BitVec 8)) : Unread bufsz
    (bytes.foldl (RxFifo.receive bufsz) fifo) ((items ++ bytes).rtake (bufsz.toNat - 1)) := by
  obtain ⟨r, hr, rfl⟩ := h
  refine ⟨r.putAll bytes, ?_, r.items_putAll bytes⟩
  induction bytes generalizing fifo r with
  | nil => exact hr
  | cons c bytes ih => exact ih _ (hr.receive c)

theorem Unread.take :
    (fifo.take bufsz).1 = items.head? ∧ Unread bufsz (fifo.take bufsz).2 items.tail := by
  obtain ⟨r, hr, rfl⟩ := h
  exact hr.take

theorem Unread.rxLength : (fifo.rxLength bufsz).toNat = items.length := by
  obtain ⟨r, hr, rfl⟩ := h
  exact hr.rxLength

theorem Unread.index_lt : fifo.putIndex < bufsz ∧ fifo.getIndex < bufsz := by
  obtain ⟨r, hr, -⟩ := h
  exact ⟨hr.putIndex_lt, hr.getIndex_lt⟩

end
end RxFifo

inductive RxResult
  | void
  /-- `rx_indicate` is called with the length -/
  | indicate (rxLength : Nat)
  /-- `rt_serial_read` returns, with these bytes in its buffer -/
  | returns (data : List (BitVec 8))
  deriving DecidableEq

/-- The steps of a run. The calls of `rt_serial_read` are of the type `ρ`. -/
inductive IntRxOp (ρ : Type*)
  /-- a round of the loop of `rt_hw_serial_isr`, in which `getc` returns a byte -/
  | getc (ch : BitVec 8)
  /-- the end of `rt_hw_serial_isr` -/
  | isrEnd
  /-- `rt_serial_read(dev, pos, buffer, size)` up to the loop -/
  | read (i : ρ) (size : Nat)
  /-- a round of the loop of `_serial_int_rx` -/
  | round (i : ρ)

/-- Where a call of `_serial_int_rx` is: the variable `length`, and what `data` holds. -/
structure Reading where
  length : Nat
  data : List (BitVec 8)

/-- The end of a round of `_serial_int_rx` (`:120-131`), with the byte that was found. -/
def Reading.next (call : Reading) : Option (BitVec 8) → RxResult × Option Reading
  | none => (.returns call.data, none)
  | some ch =>
    let data := call.data ++ [ch]
    if call.length - 1 = 0 then (.returns data, none) else (.void, some ⟨call.length - 1, data⟩)

/-- The FIFO, and the calls of `rt_serial_read`. -/
structure IntRx (ρ : Type*) where
  fifo : RxFifo
  reading : ρ → Option Reading

namespace IntRx
variable {ρ : Type*} [DecidableEq ρ] (bufsz : BitVec 16) (rxIndicate : Bool)

/-- The device when it has been opened, without a caller. -/
def start : IntRx ρ := ⟨.cleared, fun _ => none⟩

def Enabled (s : IntRx ρ) : IntRxOp ρ → Prop
  | .getc _ | .isrEnd => True
  | .read i _ => (s.reading i).isSome = false
  | .round i => (s.reading i).isSome = true

/-- The effect of a step in the mode `RT_DEVICE_FLAG_INT_RX`; `rxIndicate` says if the callback is
set. -/
def apply (s : IntRx ρ) : IntRxOp ρ → RxResult × IntRx ρ
  | .getc ch => (.void, { s with fifo := s.fifo.receive bufsz ch })
  | .isrEnd => (if rxIndicate then .indicate (s.fifo.rxLength bufsz).toNat else .void, s)
  | .read i size =>
    if size = 0 then (.returns [], s)
    else (.void, { s with reading := update s.reading i (some ⟨size, []⟩) })
  | .round i =>
    match s.reading i with
    | none => (.void, s)
    | some call =>
      let (ch, fifo) := s.fifo.take bufsz
      let (result, call) := call.next ch
      (result, ⟨fifo, update s.reading i call⟩)

def machine : Machine (IntRx ρ) (IntRxOp ρ) RxResult := ⟨Enabled, apply bufsz rxIndicate⟩

instance (s : IntRx ρ) (op : IntRxOp ρ) : Decidable ((machine bufsz rxIndicate).Enabled s op) :=
  match op with
  | .getc _ | .isrEnd => .isTrue trivial
  | .read .. | .round _ => decEq _ _

end IntRx

/-- The specification: the unread bytes, and for each reader how many bytes it wants and which it
has got. -/
structure ByteQueue (ρ : Type*) where
  unread : List (BitVec 8)
  reader : ρ → Option (Nat × List (BitVec 8))

namespace ByteQueue
variable {ρ : Type*} [DecidableEq ρ]

def empty : ByteQueue ρ := ⟨[], fun _ => none⟩

/-- The queue keeps the newest `m` unread bytes. A reader moves the oldest one to what it has got,
and is done when it has all it wants or nothing is unread. -/
def machine (m : Nat) (rxIndicate : Bool) : Machine (ByteQueue ρ) (IntRxOp ρ) RxResult where
  Enabled q
    | .getc _ | .isrEnd => True
    | .read i _ => q.reader i = none
    | .round i => q.reader i ≠ none
  apply q
    | .getc ch => (.void, { q with unread := (q.unread ++ [ch]).rtake m })
    | .isrEnd => (if rxIndicate then .indicate q.unread.length else .void, q)
    | .read i wanted =>
      if wanted = 0 then (.returns [], q)
      else (.void, { q with reader := update q.reader i (some (wanted, [])) })
    | .round i =>
      match q.reader i with
      | none => (.void, q)
      | some (wanted, got) =>
        let got := got ++ q.unread.take 1
        if got.length = wanted ∨ q.unread = [] then
          (.returns got, ⟨q.unread.drop 1, update q.reader i none⟩)
        else (.void, ⟨q.unread.drop 1, update q.reader i (some (wanted, got))⟩)

end ByteQueue

namespace IntRx
variable {ρ : Type*} [DecidableEq ρ] {bufsz : BitVec 16} {rxIndicate : Bool} {s : IntRx ρ}
  {items : List (BitVec 8)}

/-- A call of `_serial_int_rx` and a reader that is as far. -/
def SameReader : Option Reading → Option (Nat × List (BitVec 8)) → Prop
  | none, none => True
  | some call, some (wanted, got) =>
    call.data = got ∧ 0 < call.length ∧ call.length + got.length = wanted
  | _, _ => False

structure Matches (bufsz : BitVec 16) (s : IntRx ρ) (q : ByteQueue ρ) : Prop where
  unread : s.fifo.Unread bufsz q.unread
  reader : ∀ i, SameReader (s.reading i) (q.reader i)

omit [DecidableEq ρ] in
theorem Matches.isSome {q : ByteQueue ρ} (h : Matches bufsz s q) (i : ρ) :
    (s.reading i).isSome = true ↔ q.reader i ≠ none := by
  have hreader := h.reader i
  cases hs : s.reading i <;> cases hq : q.reader i <;> simp_all [SameReader]

theorem Matches.update {q : ByteQueue ρ} (h : Matches bufsz s q) {fifo : RxFifo} (i : ρ)
    {call : Option Reading} {reader : Option (Nat × List (BitVec 8))}
    (hfifo : fifo.Unread bufsz items) (hi : SameReader call reader) :
    Matches bufsz ⟨fifo, update s.reading i call⟩ ⟨items, update q.reader i reader⟩ := by
  refine ⟨hfifo, fun j => ?_⟩
  by_cases hj : j = i
  · subst hj
    simpa using hi
  · simpa [hj] using h.reader j

/-- A round of the loop is a step of the reader. -/
theorem Matches.round {q : ByteQueue ρ} (h : Matches bufsz s q) (i : ρ) :
    ((ByteQueue.machine (bufsz.toNat - 1) rxIndicate).apply q (.round i)).1
        = (apply bufsz rxIndicate s (.round i)).1 ∧
      Matches bufsz (apply bufsz rxIndicate s (.round i)).2
        ((ByteQueue.machine (bufsz.toNat - 1) rxIndicate).apply q (.round i)).2 := by
  have hreader := h.reader i
  obtain ⟨hhead, htail⟩ := h.unread.take
  cases hs : s.reading i with
  | none =>
    cases hq : q.reader i with
    | none =>
      simp only [apply, ByteQueue.machine, hs, hq]
      exact ⟨trivial, h⟩
    | some reader => simp [hs, hq, SameReader] at hreader
  | some call =>
    obtain ⟨length, data⟩ := call
    cases hq : q.reader i with
    | none => simp [hs, hq, SameReader] at hreader
    | some reader =>
      obtain ⟨wanted, got⟩ := reader
      rw [hs, hq] at hreader
      obtain ⟨rfl, hpos, hwanted⟩ := hreader
      dsimp only at hpos hwanted
      have hdone : SameReader none none := trivial
      simp only [apply, ByteQueue.machine, hs, hq, hhead]
      cases hunread : q.unread with
      | nil =>
        rw [hunread] at htail
        exact ⟨by simp [Reading.next], by simpa [Reading.next] using h.update i htail hdone⟩
      | cons ch unread =>
        rw [hunread] at htail
        have hlast : length - 1 = 0 ↔ (data ++ [ch]).length = wanted := by
          rw [length_append, length_singleton]
          omega
        by_cases hend : length - 1 = 0
        · simp only [Reading.next, List.head?_cons, hend, if_true, take_succ_cons,
            take_zero, hlast.mp hend, true_or]
          exact ⟨trivial, h.update i htail hdone⟩
        · simp only [Reading.next, List.head?_cons, hend, if_false, take_succ_cons,
            take_zero, mt hlast.mpr hend, false_or, reduceCtorEq]
          refine ⟨trivial, h.update i htail ⟨rfl, Nat.pos_of_ne_zero hend, ?_⟩⟩
          rw [length_append, length_singleton]
          dsimp only
          omega

theorem matches_of_run (hsize : 0 < bufsz.toNat) {tr : List (IntRxOp ρ × RxResult)}
    (hrun : Run (machine bufsz rxIndicate).Step start tr s) :
    ∃ q, Run (ByteQueue.machine (bufsz.toNat - 1) rxIndicate).Step .empty tr q ∧
      Matches bufsz s q := by
  have hcond : Run ((machine bufsz rxIndicate).StepIf fun _ _ => True) start tr s :=
    hrun.mono fun hs => ⟨hs, trivial⟩
  refine Machine.simulation _ (Matches bufsz) hcond
    ⟨RxFifo.unread_cleared hsize, fun _ => trivial⟩ ?_
  rintro s q op h henabled -
  cases op with
  | getc ch => exact ⟨trivial, rfl, h.unread.receive [ch], h.reader⟩
  | isrEnd =>
    refine ⟨trivial, ?_, h⟩
    simp only [machine, apply, ByteQueue.machine, h.unread.rxLength]
  | read i size =>
    refine ⟨not_not.mp (mt (h.isSome i).mpr (Bool.eq_false_iff.mp henabled)), ?_⟩
    by_cases hzero : size = 0
    · simp only [machine, apply, ByteQueue.machine, hzero, if_true]
      exact ⟨trivial, h⟩
    · simp only [machine, apply, ByteQueue.machine, hzero, if_false]
      exact ⟨trivial, h.update i h.unread ⟨rfl, Nat.pos_of_ne_zero hzero, by simp⟩⟩
  | round i => exact ⟨(h.isSome i).mp henabled, h.round i⟩

/-- The rounds of a call that nothing interrupts: it gets the unread bytes from the oldest on. -/
theorem run_rounds (rxIndicate : Bool) {i : ρ} {length : Nat} {data : List (BitVec 8)}
    (hunread : s.fifo.Unread bufsz items) (hreading : s.reading i = some ⟨length + 1, data⟩) :
    ∃ s', Run (machine bufsz rxIndicate).Step s
        (replicate (min length items.length) (.round i, .void)
          ++ [(.round i, .returns (data ++ items.take (length + 1)))]) s' ∧
      s'.fifo.Unread bufsz (items.drop (length + 1)) := by
  induction length generalizing s items data with
  | zero =>
    obtain ⟨hhead, htail⟩ := hunread.take
    refine ⟨⟨(s.fifo.take bufsz).2, update s.reading i none⟩, .snoc .nil ⟨by simp [machine, Enabled,
      hreading], ?_⟩, by simpa using htail⟩
    cases items <;> simp [machine, apply, hreading, hhead, Reading.next]
  | succ length ih =>
    obtain ⟨hhead, htail⟩ := hunread.take
    have henabled : Enabled s (.round i) := by simp [Enabled, hreading]
    cases items with
    | nil =>
      refine ⟨⟨(s.fifo.take bufsz).2, update s.reading i none⟩, .snoc .nil ⟨henabled, ?_⟩, htail⟩
      simp [machine, apply, hreading, hhead, Reading.next]
    | cons ch items =>
      obtain ⟨s', hrun, hrest⟩ := ih (s := ⟨(s.fifo.take bufsz).2,
        update s.reading i (some ⟨length + 1, data ++ [ch]⟩)⟩) htail (Function.update_self ..)
      have hfirst : Run (machine bufsz rxIndicate).Step s [(.round i, .void)]
          ⟨(s.fifo.take bufsz).2, update s.reading i (some ⟨length + 1, data ++ [ch]⟩)⟩ := by
        refine .snoc .nil ⟨henabled, ?_⟩
        simp [machine, apply, hreading, hhead, Reading.next]
      have hall := hfirst.append hrun
      refine ⟨s', ?_, hrest⟩
      simpa [List.replicate_succ, Nat.succ_min_succ] using hall

/-- In the mode `RT_DEVICE_FLAG_INT_RX` every run is a run of the queue of the newest `bufsz - 1`
unread bytes: the readers get the same bytes, and `rx_indicate` the number of unread ones. A call
that nothing interrupts returns the oldest unread bytes, as many as it asks for, and leaves the
others. The indices stay inside the buffer. -/
theorem intRx_runs_as_byteQueue (hsize : 2 ≤ bufsz.toNat) {tr : List (IntRxOp ρ × RxResult)}
    (hrun : Run (machine bufsz rxIndicate).Step start tr s) :
    (∃ q : ByteQueue ρ,
      Run (ByteQueue.machine (bufsz.toNat - 1) rxIndicate).Step .empty tr q ∧
      ∀ i size, s.reading i = none → 0 < size → ∃ s' : IntRx ρ,
        Run (machine bufsz rxIndicate).Step s ((.read i size, .void)
          :: replicate (min (size - 1) q.unread.length) (.round i, .void)
          ++ [(.round i, .returns (q.unread.take size))]) s' ∧
        s'.fifo.Unread bufsz (q.unread.drop size)) ∧
      s.fifo.putIndex < bufsz ∧ s.fifo.getIndex < bufsz := by
  obtain ⟨q, hq, h⟩ := matches_of_run (by omega) hrun
  refine ⟨⟨q, hq, fun i size hidle hpos => ?_⟩, h.unread.index_lt⟩
  obtain ⟨length, rfl⟩ := Nat.exists_eq_add_of_le' hpos
  have hread : Run (machine bufsz rxIndicate).Step s [(.read i (length + 1), .void)]
      { s with reading := update s.reading i (some ⟨length + 1, []⟩) } := by
    refine .snoc .nil ⟨by simp [machine, Enabled, hidle], ?_⟩
    simp [machine, apply]
  have hreading : update s.reading i (some ⟨length + 1, []⟩) i = some ⟨length + 1, []⟩ :=
    Function.update_self ..
  obtain ⟨s', hrounds, hrest⟩ := run_rounds rxIndicate
    (s := { s with reading := update s.reading i (some ⟨length + 1, []⟩) }) h.unread hreading
  exact ⟨s', hread.append hrounds, hrest⟩

/-- Three bytes come into a buffer of three, and the oldest one is lost. A byte comes in while the
others are read, and is read with them. -/
theorem intRx_runs_as_byteQueue_overflow :
    ∃ (tr : List (IntRxOp Unit × RxResult)) (q : ByteQueue Unit),
      tr.map Prod.snd = [.void, .void, .void, .indicate 2, .void, .void, .void, .void, .void,
        .returns [2, 3, 4]] ∧
      Run (ByteQueue.machine 2 true).Step .empty tr q := by
  have hrun := (machine 3 true).run_steps start
    [.getc 1, .getc 2, .getc 3, .isrEnd, .read () 5, .round (), .getc 4, .round (), .round (),
      .round ()]
  obtain ⟨⟨q, hq, -⟩, -⟩ := intRx_runs_as_byteQueue (by decide) hrun
  exact ⟨_, q, by decide +kernel, hq⟩

end IntRx
end RtThread
