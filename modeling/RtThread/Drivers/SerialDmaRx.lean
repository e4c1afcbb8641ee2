import RtThread.Drivers.SerialRx

/-!
# Receiving by DMA

The receive FIFO of a serial device (`serial.c`) in the mode `RT_DEVICE_FLAG_DMA_RX` with a buffer.
The DMA writes around in the buffer, and each event `RT_SERIAL_EVENT_RX_DMADONE` tells how many
bytes it has written. Here `get_index` may be `bufsz`, which means the same as 0.

`rt_dma_recv_update_put_index` subtracts `bufsz` once more than `len / bufsz` times, which is one
time too often when an event brings a whole buffer.
-/

namespace RtThread
open RingBuffer
open Nat
open Function
open LossyRing (writeAround)
open List
open BitVec

namespace RxFifo

section Functions
variable (bufsz : BitVec 16) (fifo : RxFifo) (len : BitVec 32)

/-- `rt_dma_calc_recved_len` (`serial.c:169-178`). -/
def rtDmaCalcRecvedLen : BitVec 32 := fifo.rxLength bufsz

/-- `rt_dma_recv_update_get_index` (`:186-196`). -/
def rtDmaRecvUpdateGetIndex : RxFifo :=
  let get := fifo.getIndex + len.setWidth 16
  { fifo with getIndex := if bufsz < get then get - bufsz else get }

/-- The loops of `rt_dma_recv_update_put_index` (`:214-216` and `227-229`). -/
def stepBack (put : BitVec 16) : BitVec 16 :=
  (fun index => index - bufsz)^[(len / bufsz.setWidth 32).toNat + 1] put

/-- `rt_dma_recv_update_put_index` (`:204-235`). -/
def rtDmaRecvUpdatePutIndex : RxFifo :=
  let put := fifo.putIndex + len.setWidth 16
  if fifo.getIndex ≤ fifo.putIndex then
    if bufsz ≤ put then
      let put := stepBack bufsz len put
      if fifo.getIndex ≤ put then { fifo with putIndex := put, getIndex := put + 1 }
      else { fifo with putIndex := put }
    else { fifo with putIndex := put }
  else if fifo.getIndex ≤ put then
    let put := if bufsz ≤ put then stepBack bufsz len put else put
    { fifo with putIndex := put, getIndex := put + 1 }
  else { fifo with putIndex := put }

/-- `rt_memcpy` of `n` bytes from the index `i` of the buffer on. -/
def bytesAt (i n : BitVec 32) : List (BitVec 8) :=
  (range n.toNat).map fun j => fifo.buffer (i.toNat + j)

/-- The variable `recv_len` of `_serial_dma_rx` (`:270-278`). -/
def recvLen (length : BitVec 32) : BitVec 32 :=
  let fifoRecvedLen := fifo.rtDmaCalcRecvedLen bufsz
  if length < fifoRecvedLen then length else fifoRecvedLen

/-- What `_serial_dma_rx` copies to `data` (`:280-287`). -/
def copyOut : List (BitVec 8) :=
  let get := fifo.getIndex.setWidth 32
  let size := bufsz.setWidth 32
  if get + len < size then fifo.bytesAt get len
  else fifo.bytesAt get (size - get) ++ fifo.bytesAt 0 (len + get - size)

/-- `_serial_dma_rx` (`:268-291`) with a buffer: what is copied to `data`, and the FIFO. -/
def serialDmaRx (length : BitVec 32) : List (BitVec 8) × RxFifo :=
  let recvLen := fifo.recvLen bufsz length
  (fifo.copyOut bufsz recvLen, fifo.rtDmaRecvUpdateGetIndex bufsz recvLen)

end Functions

/-- The fields of the FIFO are those of the ring, `get_index` up to the length of the buffer. -/
structure Around (bufsz : BitVec 16) (fifo : RxFifo) {n : Nat} (r : LossyRing (BitVec 8) n) :
    Prop where
  size : bufsz.toNat = n
  buffer : fifo.buffer = r.cell
  putIndex : fifo.putIndex.toNat = r.last
  getIndex : (fifo.getIndex.toNat + r.count) % n = r.last
  getIndex_le : fifo.getIndex.toNat ≤ n

variable {bufsz : BitVec 16} {fifo : RxFifo} {n : Nat} {r : LossyRing (BitVec 8) n}

theorem Around.index (h : Around bufsz fifo r) (i : Nat) :
    (fifo.getIndex.toNat + i) % n = (r.first + i) % n := by
  have hmod : fifo.getIndex.toNat ≡ r.first [MOD n] :=
    ModEq.add_right_cancel' r.count (h.getIndex.trans r.last_eq)
  exact hmod.add_right i

theorem Around.recvedLen (h : Around bufsz fifo r) :
    (fifo.rtDmaCalcRecvedLen bufsz).toNat = r.count := by
  refine rxLength_eq ?_ ?_ ?_
  · rw [le_def, h.size]
    exact h.getIndex_le
  · rw [h.size]
    exact r.count_lt
  · rw [h.size, h.getIndex, h.putIndex]

variable {len : BitVec 32}

theorem stepBack_of_lt (hlen : len.toNat < bufsz.toNat) (put : BitVec 16) :
    stepBack bufsz len put = put - bufsz := by
  have hzero : (len / bufsz.setWidth 32).toNat = 0 := by
    rw [toNat_udiv, toNat_setWidth, mod_eq_of_lt (by omega)]
    exact div_eq_of_lt hlen
  rw [stepBack, hzero]
  rfl

/-- The indices after an event: `put_index` has gone on by `len`, and `get_index` is right for what
is then in the buffer. -/
theorem updatePutIndex_indices {count : Nat}
    (hget : fifo.getIndex.toNat ≤ bufsz.toNat) (hput : fifo.putIndex.toNat < bufsz.toNat)
    (hcount : count < bufsz.toNat)
    (heq : (fifo.getIndex.toNat + count) % bufsz.toNat = fifo.putIndex.toNat)
    (hpos : 0 < len.toNat) (hlen : len.toNat < bufsz.toNat)
    (hcarry : fifo.putIndex.toNat + len.toNat < 65536) :
    let fifo' := fifo.rtDmaRecvUpdatePutIndex bufsz len
    fifo'.putIndex.toNat = (fifo.putIndex.toNat + len.toNat) % bufsz.toNat ∧
      (fifo'.getIndex.toNat + min (count + len.toNat) (bufsz.toNat - 1)) % bufsz.toNat =
        fifo'.putIndex.toNat ∧
      fifo'.getIndex.toNat ≤ bufsz.toNat := by
  have hsum : (fifo.putIndex + len.setWidth 16).toNat = fifo.putIndex.toNat + len.toNat := by
    rw [toNat_add, toNat_setWidth]
    omega
  have hback := stepBack_of_lt hlen (fifo.putIndex + len.setWidth 16)
  have hnext : ∀ put : BitVec 16, put.toNat < bufsz.toNat → (put + 1).toNat = put.toNat + 1 := by
    intro put hlt
    bv_omega
  have hwrap : bufsz.toNat ≤ fifo.putIndex.toNat + len.toNat →
      (fifo.putIndex + len.setWidth 16 - bufsz).toNat =
        fifo.putIndex.toNat + len.toNat - bufsz.toNat := by
    intro hle
    bv_omega
  have hround := mod_eq_ite (n := bufsz.toNat) (i := fifo.putIndex.toNat + len.toNat) (by omega)
  -- `get_index` is behind `put_index` by `count`, in the same round or in the one before
  have hbehind : fifo.getIndex.toNat + count = fifo.putIndex.toNat ∨
      fifo.getIndex.toNat + count = fifo.putIndex.toNat + bufsz.toNat := by
    rw [mod_eq_ite] at heq
    split at heq
    · exact .inl heq
    · right
      omega
  rw [hround]
  rw [rtDmaRecvUpdatePutIndex]
  simp only [hback, le_def, hsum]
  split
  · split
    · rename_i hend
      rw [hwrap hend]
      split
      · dsimp only
        rw [hnext _ (by omega), hwrap hend, mod_eq_ite]
        split <;> split <;> omega
      · dsimp only
        rw [hwrap hend, mod_eq_ite]
        split <;> split <;> omega
    · dsimp only
      rw [hsum, mod_eq_ite]
      split <;> split <;> omega
  · split
    · dsimp only
      split
      · rename_i hend
        rw [hnext _ (by omega), hwrap hend, mod_eq_ite]
        split <;> split <;> omega
      · rw [hnext _ (by omega), hsum, mod_eq_ite]
        split <;> split <;> omega
    · dsimp only
      rw [hsum, mod_eq_ite]
      split <;> split <;> omega

@[simp] theorem rtDmaRecvUpdatePutIndex_buffer (len : BitVec 32) :
    (fifo.rtDmaRecvUpdatePutIndex bufsz len).buffer = fifo.buffer := by
  unfold rtDmaRecvUpdatePutIndex
  dsimp only
  repeat' split
  all_goals rfl

theorem Around.dmaDone (h : Around bufsz fifo r) {bytes : List (BitVec 8)}
    (hpos : 0 < bytes.length) (hlen : bytes.length < n)
    (hcarry : fifo.putIndex.toNat + bytes.length < 65536) :
    Around bufsz (rtDmaRecvUpdatePutIndex bufsz
      { fifo with buffer := writeAround n fifo.buffer r.last bytes }
      (BitVec.ofNat 32 bytes.length)) (r.putAll bytes) := by
  obtain ⟨rfl, hbuffer, hput, hget, hle⟩ := h
  have hnat : (BitVec.ofNat 32 bytes.length).toNat = bytes.length := by
    rw [toNat_ofNat, mod_eq_of_lt (by omega)]
  have hlast := r.last_lt
  have hcount := r.count_lt
  rw [← hput] at hget hlast
  let written : RxFifo := { fifo with buffer := writeAround bufsz.toNat fifo.buffer r.last bytes }
  obtain ⟨hput', hget', hle'⟩ := updatePutIndex_indices
    (show written.getIndex.toNat ≤ bufsz.toNat from hle) hlast hcount hget (by rwa [hnat])
    (by rwa [hnat]) (by rwa [hnat])
  rw [hnat] at hput' hget'
  rw [hput] at hput'
  refine ⟨rfl, ?_, ?_, ?_, hle'⟩
  · rw [rtDmaRecvUpdatePutIndex_buffer, r.putAll_cell, hbuffer]
  · rw [hput', r.putAll_last]
  · rw [r.putAll_count, r.putAll_last, hget', hput']

theorem Around.take_items (h : Around bufsz fifo r) {k : Nat} (hk : k ≤ r.count) : r.items.take k =
      (range k).map fun i => fifo.buffer ((fifo.getIndex.toNat + i) % n) := by
  rw [items, ← map_take, take_range, min_eq_left hk]
  refine map_congr_left fun i _ => ?_
  rw [h.buffer, h.index]

theorem range_map_around {α : Type*} (f : Nat → α) {get k size : Nat} (hget : get ≤ size)
    (hk : k < size) :
    ((range k).map fun i => f ((get + i) % size)) =
      if get + k < size then (range k).map fun i => f (get + i)
      else ((range (size - get)).map fun i => f (get + i)) ++
        (range (k + get - size)).map f := by
  split
  · refine map_congr_left fun i hi => ?_
    rw [mem_range] at hi
    rw [mod_eq_of_lt (by omega)]
  · have hsplit : range k = range (size - get) ++
        (range (k + get - size)).map fun i => size - get + i := by
      rw [← range_add]
      congr 1
      omega
    rw [hsplit, map_append, map_map]
    congr 1
    · refine map_congr_left fun i hi => ?_
      rw [mem_range] at hi
      rw [mod_eq_of_lt (by omega)]
    · refine map_congr_left fun i hi => ?_
      rw [mem_range] at hi
      have hindex : get + (size - get + i) = i + size := by omega
      rw [comp_apply, hindex, add_mod_right, mod_eq_of_lt (by omega)]

section
variable (h : Around bufsz fifo r)
include h

theorem Around.recvLen (length : BitVec 32) :
    (fifo.recvLen bufsz length).toNat = min length.toNat r.count := by
  have hrecved := h.recvedLen
  simp only [RxFifo.recvLen, lt_def, hrecved]
  split
  · omega
  · rw [hrecved]
    omega

theorem Around.copyOut (hlen : len.toNat ≤ r.count) :
    fifo.copyOut bufsz len = r.items.take len.toNat := by
  have hcount := r.count_lt
  have hle := h.getIndex_le
  rw [h.take_items hlen, range_map_around _ hle (by omega)]
  have hsize := h.size
  have hsum : (fifo.getIndex.setWidth 32 + len).toNat = fifo.getIndex.toNat + len.toNat := by
    bv_omega
  have hfirst : (bufsz.setWidth 32 - fifo.getIndex.setWidth 32).toNat =
      n - fifo.getIndex.toNat := by bv_omega
  have hindex : (fifo.getIndex.setWidth 32).toNat = fifo.getIndex.toNat := by bv_omega
  have hend : (bufsz.setWidth 32).toNat = n := by bv_omega
  simp only [RxFifo.copyOut, lt_def, hsum, hend]
  split
  · rw [bytesAt, hindex]
  · have hrest : (len + fifo.getIndex.setWidth 32 - bufsz.setWidth 32).toNat =
        len.toNat + fifo.getIndex.toNat - n := by bv_omega
    simp [bytesAt, hindex, hfirst, hrest]

theorem Around.updateGetIndex
    (hlen : len.toNat ≤ r.count) (hcarry : fifo.getIndex.toNat + len.toNat < 65536) :
    Around bufsz (fifo.rtDmaRecvUpdateGetIndex bufsz len) (r.skip len.toNat hlen) := by
  have hcount := r.count_lt
  have hle := h.getIndex_le
  have hget := h.getIndex
  have hsize := h.size
  have hsum : (fifo.getIndex + len.setWidth 16).toNat = fifo.getIndex.toNat + len.toNat := by
    rw [toNat_add, toNat_setWidth]
    omega
  have hget' : (fifo.rtDmaRecvUpdateGetIndex bufsz len).getIndex.toNat =
      if n < fifo.getIndex.toNat + len.toNat then fifo.getIndex.toNat + len.toNat - n
      else fifo.getIndex.toNat + len.toNat := by
    simp only [rtDmaRecvUpdateGetIndex, lt_def, hsum, hsize]
    split
    · rw [toNat_sub_of_le (by rw [le_def, hsum]; omega), hsum, hsize]
    · exact hsum
  refine ⟨hsize, h.buffer, h.putIndex, ?_, ?_⟩
  · change (_ + (r.count - len.toNat)) % n = r.last
    rw [hget', ← hget]
    split
    · rw [← add_mod_right (_ + _)]
      congr 1
      omega
    · congr 1
      omega
  · rw [hget']
    split <;> omega

theorem Around.serialDmaRx {length : BitVec 32}
    (hcarry : fifo.getIndex.toNat + min length.toNat r.count < 65536) :
    (fifo.serialDmaRx bufsz length).1 = r.items.take length.toNat ∧
      ∃ r' : LossyRing (BitVec 8) n, Around bufsz (fifo.serialDmaRx bufsz length).2 r' ∧
        r'.items = r.items.drop length.toNat := by
  have hlen := h.recvLen length
  have hk : (fifo.recvLen bufsz length).toNat ≤ r.count := by omega
  rw [← hlen] at hcarry
  refine ⟨?_, r.skip _ hk, h.updateGetIndex hk hcarry, ?_⟩
  · rw [RxFifo.serialDmaRx, h.copyOut hk, hlen, ← r.length_items, ← take_eq_take_min]
  · rw [r.items_skip, hlen, ← r.length_items]
    obtain hcase | hcase := le_total length.toNat r.items.length
    · rw [min_eq_left hcase]
    · rw [min_eq_right hcase, drop_length, drop_of_length_le hcase]

end
end RxFifo

/-- The FIFO, and the index at which the DMA writes next. -/
structure DmaRx where
  fifo : RxFifo
  dmaIndex : Nat

inductive DmaRxOp
  /-- the DMA writes the bytes and raises `RT_SERIAL_EVENT_RX_DMADONE` with their number -/
  | dmaDone (bytes : List (BitVec 8))
  /-- `rt_serial_read(dev, pos, buffer, size)` -/
  | read (size : BitVec 32)

namespace DmaRx

section Functions
variable (bufsz : BitVec 16) (rxIndicate : Bool) (s : DmaRx)

/-- The DMA writes around in the buffer. -/
def dmaWrite (bytes : List (BitVec 8)) : DmaRx :=
  { fifo := { s.fifo with buffer := writeAround bufsz.toNat s.fifo.buffer s.dmaIndex bytes }
    dmaIndex := (s.dmaIndex + bytes.length) % bufsz.toNat }

/-- `rt_hw_serial_isr` with `RT_SERIAL_EVENT_RX_DMADONE` and a buffer (`:772-779`). -/
def rtHwSerialIsr (length : BitVec 32) : RxResult × DmaRx :=
  let s := { s with fifo := s.fifo.rtDmaRecvUpdatePutIndex bufsz length }
  (if rxIndicate then .indicate (s.fifo.rtDmaCalcRecvedLen bufsz).toNat else .void, s)

/-- `rt_serial_read` (`:535-557`). -/
def rtSerialRead (size : BitVec 32) : RxResult × DmaRx :=
  if size = 0 then (.returns [], s)
  else
    let (data, fifo) := s.fifo.serialDmaRx bufsz size
    (.returns data, { s with fifo := fifo })

def apply : DmaRxOp → RxResult × DmaRx
  | .dmaDone bytes => (s.dmaWrite bufsz bytes).rtHwSerialIsr bufsz rxIndicate
    (.ofNat 32 bytes.length)
  | .read size => s.rtSerialRead bufsz size

end Functions

/-- An event tells of at least one byte, and of a whole buffer at most. -/
def Enabled (bufsz : Nat) : DmaRxOp → Prop
  | .dmaDone bytes => 1 ≤ bytes.length ∧ bytes.length ≤ bufsz
  | .read _ => True

/-- The device in the mode `RT_DEVICE_FLAG_DMA_RX`; `rxIndicate` says if the callback is set. -/
def machine (bufsz : BitVec 16) (rxIndicate : Bool) : Machine DmaRx DmaRxOp RxResult :=
  ⟨fun _ => Enabled bufsz.toNat, apply bufsz rxIndicate⟩

instance (bufsz : BitVec 16) (rxIndicate : Bool) (s : DmaRx) (op : DmaRxOp) :
    Decidable ((machine bufsz rxIndicate).Enabled s op) :=
  match op with
  | .dmaDone _ => instDecidableAnd
  | .read _ => .isTrue trivial

def opened : DmaRx := ⟨.cleared, 0⟩

/-- The queue that keeps the newest `bufsz - 1` unread bytes. -/
def newestBytes (bufsz : Nat) (rxIndicate : Bool) : Machine (List (BitVec 8)) DmaRxOp RxResult where
  Enabled _ := Enabled bufsz
  apply unread
    | .dmaDone bytes =>
      let unread := (unread ++ bytes).rtake (bufsz - 1)
      (if rxIndicate then .indicate unread.length else .void, unread)
    | .read size => (.returns (unread.take size.toNat), unread.drop size.toNat)

/-- An event brings less than a whole buffer, and no index overflows its 16 bits; in a buffer of at
most 32768 bytes none does. -/
def Safe (bufsz : BitVec 16) (s : DmaRx) : DmaRxOp → Prop
  | .dmaDone bytes =>
    bytes.length < bufsz.toNat ∧
      (bufsz.toNat ≤ 32768 ∨ s.fifo.putIndex.toNat + bytes.length < 65536)
  | .read size =>
    bufsz.toNat ≤ 32768 ∨ s.fifo.getIndex.toNat + (s.fifo.recvLen bufsz size).toNat < 65536

instance (bufsz : BitVec 16) (s : DmaRx) (op : DmaRxOp) : Decidable (s.Safe bufsz op) :=
  match op with
  | .dmaDone _ => instDecidableAnd
  | .read _ => instDecidableOr

/-- The device holds the unread bytes, and the DMA is where `put_index` is. -/
def Holds (bufsz : BitVec 16) (s : DmaRx) (unread : List (BitVec 8)) : Prop :=
  ∃ r : LossyRing (BitVec 8) bufsz.toNat,
    s.fifo.Around bufsz r ∧ s.dmaIndex = r.last ∧ r.items = unread

variable {bufsz : BitVec 16} {rxIndicate : Bool} {s : DmaRx} {unread : List (BitVec 8)}

theorem Holds.dmaDone (h : s.Holds bufsz unread) {bytes : List (BitVec 8)}
    (henabled : Enabled bufsz.toNat (.dmaDone bytes)) (hsafe : s.Safe bufsz (.dmaDone bytes))
    (rxIndicate : Bool) :
    Holds bufsz (s.apply bufsz rxIndicate (.dmaDone bytes)).2
      ((unread ++ bytes).rtake (bufsz.toNat - 1)) := by
  obtain ⟨r, hr, hindex, rfl⟩ := h
  obtain ⟨hlen, hcarry⟩ := hsafe
  have hput : s.fifo.putIndex.toNat < bufsz.toNat := by
    rw [hr.putIndex]
    exact r.last_lt
  refine ⟨r.putAll bytes, ?_, ?_, r.items_putAll bytes⟩
  · have hdone := hr.dmaDone henabled.1 hlen (by omega)
    rwa [← hindex] at hdone
  · rw [r.putAll_last, ← hindex]
    rfl

theorem Holds.recvedLen (h : s.Holds bufsz unread) :
    (s.fifo.rtDmaCalcRecvedLen bufsz).toNat = unread.length := by
  obtain ⟨r, hr, -, rfl⟩ := h
  rw [hr.recvedLen, r.length_items]

theorem Holds.read (h : s.Holds bufsz unread) {size : BitVec 32}
    (hsafe : s.Safe bufsz (.read size)) :
    (s.rtSerialRead bufsz size).1 = .returns (unread.take size.toNat) ∧
      Holds bufsz (s.rtSerialRead bufsz size).2 (unread.drop size.toNat) := by
  rw [rtSerialRead]
  split
  · rename_i hzero
    subst hzero
    exact ⟨rfl, h⟩
  · obtain ⟨r, hr, hindex, rfl⟩ := h
    have hget := hr.getIndex_le
    have hcount := r.count_lt
    have hcarry : s.fifo.getIndex.toNat + min size.toNat r.count < 65536 := by
      change _ ∨ _ at hsafe
      rw [hr.recvLen] at hsafe
      omega
    obtain ⟨hdata, r', hr', hitems⟩ := hr.serialDmaRx hcarry
    refine ⟨congrArg RxResult.returns hdata, r', hr', ?_, hitems⟩
    have hsame : (s.fifo.serialDmaRx bufsz size).2.putIndex = s.fifo.putIndex := rfl
    rw [← hr'.putIndex, hsame, hr.putIndex]
    exact hindex

/-- In a run in which every event brings less than a whole buffer and no index overflows, the device
answers as the queue of the newest `bufsz - 1` unread bytes, and `put_index` stays inside the
buffer.
-/
theorem dmaRx_runs_as_newestBytes (hsize : 2 ≤ bufsz.toNat) {tr : List (DmaRxOp × RxResult)}
    (hrun : Run ((machine bufsz rxIndicate).StepIf (Safe bufsz)) opened tr s) :
    (∃ q, Run (newestBytes bufsz.toNat rxIndicate).Step [] tr q) ∧ s.fifo.putIndex < bufsz := by
  have hstart : opened.Holds bufsz [] :=
    ⟨LossyRing.empty (fun _ => 0) (by omega),
      ⟨rfl, rfl, rfl, mod_eq_of_lt (show 0 < _ by omega), zero_le _⟩, rfl, rfl⟩
  have hsim := Machine.simulation (machine bufsz rxIndicate)
    (N := newestBytes bufsz.toNat rxIndicate) (Holds bufsz) hrun hstart ?_
  · obtain ⟨q, hq, r, hr, -⟩ := hsim
    refine ⟨⟨q, hq⟩, ?_⟩
    rw [lt_def, hr.putIndex]
    exact r.last_lt
  · intro s unread op hholds henabled hsafe
    cases op with
    | dmaDone bytes =>
      have hdone := hholds.dmaDone henabled hsafe rxIndicate
      refine ⟨henabled, ?_, hdone⟩
      change (if rxIndicate then RxResult.indicate _ else .void) =
        if rxIndicate then RxResult.indicate _ else .void
      rw [← hdone.recvedLen]
      rfl
    | read size =>
      obtain ⟨hdata, hrest⟩ := hholds.read hsafe
      exact ⟨trivial, hdata.symm, hrest⟩

/-- Four bytes go around in a buffer of three. -/
theorem dmaRx_runs_as_newestBytes_around :
    ∃ tr q, tr.map Prod.snd = [.indicate 2, .returns [1, 2], .indicate 2, .returns [3]] ∧
      Run (newestBytes 3 true).Step [] tr q := by
  have hrun := (machine 3 true).run_exec (Safe 3) opened
    [.dmaDone [1, 2], .read 5, .dmaDone [3, 4], .read 1]
  obtain ⟨⟨q, hq⟩, -⟩ := dmaRx_runs_as_newestBytes (by decide) hrun
  exact ⟨_, q, by decide +kernel, hq⟩

/-- An event for a whole buffer takes `put_index` back twice: it wraps below 0, and `get_index` goes
with it. -/
theorem full_buffer_wraps_putIndex :
    ∃ tr s, Run (machine 64 true).Step opened tr s ∧ s.fifo.putIndex = 65472 ∧
      s.fifo.getIndex = 65473 ∧ ¬ s.fifo.putIndex < 64 := by
  have hrun := (machine 64 true).run_steps opened [.dmaDone (replicate 64 7)]
  refine ⟨_, _, hrun, ?_, ?_, ?_⟩
  all_goals decide +kernel

end DmaRx
end RtThread
