import RtThread.Ipc.Wait
import RtThread.Lib.RingBuffer

/-!
# Data queues

`dataqueue.c`: a bounded queue of items between threads and interrupts. `put_index` and `get_index`
are 16-bit counters that run freely. They are promoted to `int` before they are subtracted: behind a
wrap of `put_index` the difference is negative, and a full queue is not found full. They are reduced
modulo the size, so the slots go on in order behind a wrap only if the size divides 65536.
-/

namespace RtThread
open RingBuffer
open BitVec
open Function (update)

/-- `struct rt_data_queue` (`rtdevice.h:133-148`); `evtNotify` says if the callback is set. The
threads of the two lists are in the kernel. -/
structure DataQueue (α : Type*) where
  size : BitVec 16
  lwm : BitVec 16
  getIndex : BitVec 16
  putIndex : BitVec 16
  queue : Nat → α
  evtNotify : Bool

/-- `RT_DATAQUEUE_EVENT_*` (`rtdevice.h:124-127`). -/
inductive DataQueueEvent
  | pop | push | lwm
  deriving DecidableEq

/-- `suspended_push_list` and `suspended_pop_list`. -/
inductive DataQueueList
  | push | pop
  deriving DecidableEq

/-- What comes out of a section; the event is the one that `evt_notify` is called with. -/
inductive DataQueueResult (α : Type*)
  /-- the call goes on, or there is none -/
  | void
  /-- the call returns an error -/
  | fails (e : RtErr)
  /-- the item was stored, and the call returns `RT_EOK` -/
  | pushed (x : α) (event : Option DataQueueEvent)
  /-- the item was taken out, and the call returns `RT_EOK` -/
  | popped (x : α) (event : Option DataQueueEvent)
  deriving DecidableEq

namespace DataQueue
variable {α : Type*} (q : DataQueue α)

/-- `rt_data_queue_init` (`dataqueue.c:36-62`), when there is memory. -/
def rtDataQueueInit (size lwm : BitVec 16) (evtNotify : Bool) (queue : Nat → α) : DataQueue α where
  size := size
  lwm := lwm
  getIndex := 0
  putIndex := 0
  queue := queue
  evtNotify := evtNotify

/-- `queue->put_index - queue->get_index`, in `int`. -/
def difference : Int := q.putIndex.toNat - q.getIndex.toNat

/-- An item is stored (`:121-123`). -/
def put (x : α) : DataQueue α :=
  { q with
    queue := update q.queue (q.putIndex.toNat % q.size.toNat) x
    putIndex := q.putIndex + 1 }

def front : α := q.queue (q.getIndex.toNat % q.size.toNat)

/-- The item at `get_index` is taken out (`:215`). -/
def skip : DataQueue α := { q with getIndex := q.getIndex + 1 }

/-- The event, if there is somebody to call. -/
def event (e : DataQueueEvent) : Option DataQueueEvent := if q.evtNotify then some e else none

/-- `rt_data_queue_peak` (`:256-279`); `none` stands for `-RT_EEMPTY`. -/
def rtDataQueuePeak : Option α := if q.getIndex = q.putIndex then none else some q.front

/-- The items between the counters, from the oldest to the newest: what pops would return. -/
def stored : List α :=
  (List.range (q.putIndex - q.getIndex).toNat).map fun i =>
    q.queue ((q.getIndex + BitVec.ofNat 16 i).toNat % q.size.toNat)

/-- The counters and the array are those of the ring buffer. Only with a size that divides 65536
may `put_index` have wrapped and `get_index` not. -/
structure Holds {n : Nat} (r : RingBuffer α n) : Prop where
  size : q.size.toNat = n
  queue : q.queue = r.cell
  count : (q.putIndex - q.getIndex).toNat = r.count
  first : r.first = q.getIndex.toNat % n
  wrap : n ∣ 65536 ∨ q.getIndex.toNat ≤ q.putIndex.toNat

/-- A slot further on, in a counter that does not wrap or with a size that divides 65536. -/
theorem toNat_add_mod {n : Nat} {i : BitVec 16} {j : Nat} (h : n ∣ 65536 ∨ i.toNat + j < 65536) :
    (i + BitVec.ofNat 16 j).toNat % n = (i.toNat + j) % n := by
  have hsum : (i + BitVec.ofNat 16 j).toNat = (i.toNat + j) % 65536 := by
    rw [toNat_add, toNat_ofNat, Nat.add_mod_mod]
  rw [hsum]
  rcases h with hdvd | hlt
  · exact Nat.mod_mod_of_dvd _ hdvd
  · rw [Nat.mod_eq_of_lt hlt]

variable {q} {n : Nat} {r : RingBuffer α n}

theorem Holds.slot (h : q.Holds r) {j : Nat} (hj : j ≤ r.count) :
    (q.getIndex + BitVec.ofNat 16 j).toNat % n = (r.first + j) % n := by
  rw [h.first, Nat.mod_add_mod]
  refine toNat_add_mod (h.wrap.imp_right fun hle => ?_)
  have := h.count
  bv_omega

theorem Holds.stored (h : q.Holds r) : q.stored = r.items := by
  rw [DataQueue.stored, items, h.count]
  refine List.map_congr_left fun i hi => ?_
  rw [List.mem_range] at hi
  rw [h.queue, h.size, h.slot hi.le]

theorem Holds.last (h : q.Holds r) : r.last = q.putIndex.toNat % n := by
  have hput : q.putIndex = q.getIndex + BitVec.ofNat 16 r.count := by
    have := h.count
    bv_omega
  rw [r.last_eq, hput, h.slot le_rfl]

theorem init_holds {size : BitVec 16} (hsize : 0 < size.toNat) (lwm : BitVec 16) (evtNotify : Bool)
    (queue : Nat → α) :
    (rtDataQueueInit size lwm evtNotify queue).Holds (empty queue hsize) where
  size := rfl
  queue := rfl
  count := by simp [rtDataQueueInit, empty]
  first := (Nat.zero_mod _).symm
  wrap := .inr (Nat.le_refl 0)

/-- If the queue is not found full, an item can be pushed: `put_index` does not wrap or the size
divides 65536, and the queue is not full. -/
def PushOk (q : DataQueue α) : Prop :=
  q.difference ≠ q.size.toNat → (q.putIndex = 65535 → q.size.toNat ∣ 65536) ∧
    (q.putIndex < q.getIndex → q.putIndex - q.getIndex ≠ q.size)

instance : Decidable q.PushOk := inferInstanceAs (Decidable (_ → _))

theorem Holds.put (h : q.Holds r) (hroom : q.difference ≠ q.size.toNat) (hok : q.PushOk) (x : α) :
    ∃ hcount : r.count < n, (q.put x).Holds (r.push x hcount) := by
  specialize hok hroom
  have hle := r.count_le
  have hcount := h.count
  have hsize := h.size
  have hlt : r.count < n := by
    by_contra hfull
    rcases Nat.lt_or_ge q.putIndex.toNat q.getIndex.toNat with hwrapped | hge
    · exact hok.2 hwrapped (by bv_omega)
    · refine hroom ?_
      rw [difference]
      bv_omega
  refine ⟨hlt, hsize, ?_, ?_, h.first, ?_⟩
  · change update q.queue _ x = update r.cell r.last x
    rw [h.queue, h.last, hsize]
  · change (q.putIndex + 1 - q.getIndex).toNat = r.count + 1
    bv_omega
  · change n ∣ 65536 ∨ q.getIndex.toNat ≤ (q.putIndex + 1).toNat
    by_cases hlast : q.putIndex = 65535
    · exact .inl (hsize ▸ hok.1 hlast)
    · exact h.wrap.imp_right fun hle => by bv_omega

theorem Holds.skip (h : q.Holds r) (hitem : q.getIndex ≠ q.putIndex) :
    ∃ hcount : 0 < r.count, q.front = r.cell r.first ∧ q.skip.Holds (r.pop hcount) := by
  have hsum := h.count
  have hcount : 0 < r.count := by bv_omega
  refine ⟨hcount, ?_, h.size, h.queue, ?_, ?_, ?_⟩
  · rw [front, h.queue, h.size, h.first]
  · change (q.putIndex - (q.getIndex + 1)).toNat = r.count - 1
    bv_omega
  · change advance n r.first = (q.getIndex + 1).toNat % n
    rw [advance_eq_mod r.first_lt]
    exact (h.slot hcount).symm
  · change n ∣ 65536 ∨ (q.getIndex + 1).toNat ≤ q.putIndex.toNat
    exact h.wrap.imp_right fun hle => by bv_omega

theorem Holds.peak (h : q.Holds r) : q.rtDataQueuePeak = q.stored.head? := by
  rw [rtDataQueuePeak]
  split
  · rename_i heq
    simp [DataQueue.stored, heq]
  · rename_i hne
    obtain ⟨hcount, hfront, -⟩ := h.skip hne
    rw [h.stored, r.items_pop hcount, hfront]
    rfl

end DataQueue

structure DataQueueState (τ α : Type*) where
  k : Kernel τ DataQueueList
  q : DataQueue α

namespace DataQueueState
variable {τ α : Type*} [DecidableEq τ] (s : DataQueueState τ α) (t : τ) (x : α)

/-- `rt_data_queue_push` behind its loop (`:121-150`). -/
def store : DataQueueResult α × DataQueueState τ α :=
  let s := { s with q := s.q.put x }
  match s.k.list (.wait .pop) with
  | [] => (.pushed x (s.q.event .push), s)
  | _ :: _ => (.pushed x none, { s with k := s.k.rtIpcListResume .pop })

/-- `rt_data_queue_push` (`:65-151`) of the thread `t`, from the test of the loop on. -/
def rtDataQueuePush (timeout : BitVec 32) : DataQueueResult α × DataQueueState τ α :=
  if s.q.difference = s.q.size.toNat then
    if timeout = 0 then (.fails .etimeout, s)
    else (.void, { s with k := s.k.listWait .push t timeout })
  else s.store x

/-- `rt_data_queue_push(queue, x, size, 0)` in an interrupt. -/
def rtDataQueuePushIsr : DataQueueResult α × DataQueueState τ α :=
  if s.q.difference = s.q.size.toNat then (.fails .etimeout, s) else s.store x

/-- `rt_data_queue_pop` behind its loop (`:212-252`). -/
def take : DataQueueResult α × DataQueueState τ α :=
  let x := s.q.front
  let s := { s with q := s.q.skip }
  if s.q.difference ≤ s.q.lwm.toNat then
    (.popped x (s.q.event .lwm), { s with k := s.k.rtIpcListResume .push })
  else (.popped x (s.q.event .pop), s)

/-- `rt_data_queue_pop` (`:154-253`) of the thread `t`, from the test of the loop on. -/
def rtDataQueuePop (timeout : BitVec 32) : DataQueueResult α × DataQueueState τ α :=
  if s.q.getIndex = s.q.putIndex then
    if timeout = 0 then (.fails .etimeout, s)
    else (.void, { s with k := s.k.listWait .pop t timeout })
  else s.take

/-- `rt_data_queue_pop(queue, data_ptr, size, 0)` in an interrupt. -/
def rtDataQueuePopIsr : DataQueueResult α × DataQueueState τ α :=
  if s.q.getIndex = s.q.putIndex then (.fails .etimeout, s) else s.take

theorem store_spec : ∃ event, (s.store x).1 = .pushed x event ∧ (s.store x).2.q = s.q.put x := by
  rw [store]
  split <;> exact ⟨_, rfl, rfl⟩

theorem take_spec : ∃ event, s.take.1 = .popped s.q.front event ∧ s.take.2.q = s.q.skip := by
  rw [take]
  split <;> exact ⟨_, rfl, rfl⟩

end DataQueueState
end RtThread
