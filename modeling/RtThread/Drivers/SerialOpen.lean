import RtThread.Kernel.State
import RtThread.Lib.Run
import Mathlib.Data.List.Perm.Basic

/-!
# Opening and closing a serial device

`rt_device_open` and `rt_device_close` of `device.c` for a device of `serial.c`. The structures
behind `serial_rx` and `serial_tx` are allocated by the first open that asks for them, and every
open overwrites `open_flag`, by which reads, writes and the last close tell which structure there
is. This goes well as long as every open asks for the modes in which the device is open already.
-/

namespace RtThread
open List

/-- `RT_DEVICE_FLAG_*` and `RT_DEVICE_OFLAG_*` (`rtdef.h:770-796`). -/
def flagStandalone : BitVec 16 := 0x008
def flagActivated : BitVec 16 := 0x010
def flagIntRx : BitVec 16 := 0x100
def flagDmaRx : BitVec 16 := 0x200
def flagIntTx : BitVec 16 := 0x400
def flagDmaTx : BitVec 16 := 0x800
def oflagClose : BitVec 16 := 0x000
def oflagOpen : BitVec 16 := 0x008

def hasFlag (flags bit : BitVec 16) : Bool := flags &&& bit != 0

variable {flags other bit : BitVec 16}

theorem hasFlag_or (h : other &&& bit = 0 := by decide) :
    hasFlag (flags ||| other) bit = hasFlag flags bit := by
  rw [hasFlag, hasFlag, BitVec.and_or_distrib_right, h]
  exact congrArg (· != 0) BitVec.or_zero

theorem hasFlag_or_self {flags bit : BitVec 16} (h : bit ≠ 0) :
    hasFlag (flags ||| bit) bit = true := by
  have habsorb : (flags ||| bit) &&& bit = bit := by
    ext i hi
    simpa using .inr
  rw [hasFlag, habsorb]
  simpa using h

theorem hasFlag_and_not (h : ~~~other &&& bit = bit) :
    hasFlag (flags &&& ~~~other) bit = hasFlag flags bit := by
  rw [hasFlag, hasFlag, BitVec.and_assoc, h]

/-- The structures of `serial.h:119-148`. -/
inductive SerialStruct
  | rxDma | rxFifo | txDma | txFifo
  deriving DecidableEq

inductive SerialMode
  | int | dma
  deriving DecidableEq

/-- A pointer from `rt_malloc`, the structure that was put there, and the mode it was made for. -/
structure SerialPtr where
  id : Nat
  struct : SerialStruct
  mode : SerialMode
  deriving DecidableEq

/-- The fields of `struct rt_serial_device` that are used here, what its `configure` returns, and
the heap: how many structures were allocated, and which were freed. The array of a data queue counts
for itself. -/
structure SerialDevice where
  flag : BitVec 16
  openFlag : BitVec 16
  refCount : BitVec 8
  bufsz : BitVec 16
  configure : RtErr
  serialRx : Option SerialPtr
  serialTx : Option SerialPtr
  allocated : Nat
  freed : List Nat
  queueArrays : Nat

namespace SerialDevice

section Functions
variable (dev : SerialDevice) (oflag : BitVec 16)

/-- `rt_serial_init` (`serial.c:332-349`). -/
def rtSerialInit : RtErr × SerialDevice :=
  (dev.configure, { dev with serialRx := none, serialTx := none })

/-- A structure of `rt_serial_open`, allocated if there is none and a mode bit asks for it: the
pointer, the number of allocated structures, and the bit that is set in `open_flag`. -/
def acquire (intBit dmaBit : BitVec 16) (intStruct dmaStruct : SerialStruct) (p : Option SerialPtr)
    (allocated : Nat) : Option SerialPtr × Nat × BitVec 16 :=
  if p = none then
    if hasFlag oflag dmaBit then (some ⟨allocated, dmaStruct, .dma⟩, allocated + 1, dmaBit)
    else if hasFlag oflag intBit then (some ⟨allocated, intStruct, .int⟩, allocated + 1, intBit)
    else (none, allocated, 0)
  else (p, allocated, 0)

/-- The receive structure of `rt_serial_open` (`:372-421`). -/
def openRx : SerialDevice :=
  let (p, allocated, bit) := acquire oflag flagIntRx flagDmaRx .rxFifo
    (if dev.bufsz = 0 then .rxDma else .rxFifo) dev.serialRx dev.allocated
  { dev with serialRx := p, allocated := allocated, openFlag := dev.openFlag ||| bit }

/-- The transmit structure of `rt_serial_open` (`:423-456`); a new `tx_dma` gets the array of
its data queue. -/
def openTx : SerialDevice :=
  let (p, allocated, bit) :=
    acquire oflag flagIntTx flagDmaTx .txFifo .txDma dev.serialTx dev.allocated
  { dev with
    serialTx := p
    allocated := allocated
    openFlag := dev.openFlag ||| bit
    queueArrays := if bit = flagDmaTx then dev.queueArrays + 1 else dev.queueArrays }

/-- The device lacks a mode that `oflag` asks for (`:359-366`). -/
def lacksMode : Bool :=
  [flagDmaRx, flagDmaTx, flagIntRx, flagIntTx].any fun bit =>
    hasFlag oflag bit && !hasFlag dev.flag bit

/-- `rt_serial_open` (`:351-459`). -/
def rtSerialOpen : RtErr × SerialDevice :=
  if dev.lacksMode oflag then (.eio, dev)
  else (.eok, ({ dev with openFlag := oflag &&& 0xff }.openRx oflag).openTx oflag)

/-- `rt_device_open` (`device.c:180-229`) behind the initialization. -/
def openActivated : RtErr × SerialDevice :=
  if hasFlag dev.flag flagStandalone ∧ hasFlag dev.openFlag oflagOpen then (.ebusy, dev)
  else
    match dev.rtSerialOpen oflag with
    | (.eok, dev) =>
      (.eok, { dev with openFlag := oflag ||| oflagOpen, refCount := dev.refCount + 1 })
    | (e, dev) => (e, dev)

/-- `rt_device_open` (`device.c:180-229`). -/
def rtDeviceOpen : RtErr × SerialDevice :=
  if hasFlag dev.flag flagActivated then dev.openActivated oflag
  else
    match dev.rtSerialInit with
    | (.eok, dev) => { dev with flag := dev.flag ||| flagActivated }.openActivated oflag
    | (e, dev) => (e, dev)

/-- A structure of `rt_serial_close`: it is freed if a mode bit is set. The results are the pointer,
what was freed, and `open_flag`. -/
def release (openFlag intBit dmaBit : BitVec 16) (p : Option SerialPtr) (freed : List Nat) :
    Option SerialPtr × List Nat × BitVec 16 :=
  let free := freed ++ p.toList.map SerialPtr.id
  if hasFlag openFlag intBit then (none, free, openFlag &&& ~~~intBit)
  else if hasFlag openFlag dmaBit then (none, free, openFlag &&& ~~~dmaBit)
  else (p, freed, openFlag)

/-- The receive structure of `rt_serial_close` (`:471-505`). -/
def closeRx : SerialDevice :=
  let (p, freed, openFlag) := release dev.openFlag flagIntRx flagDmaRx dev.serialRx dev.freed
  { dev with serialRx := p, freed := freed, openFlag := openFlag }

/-- The transmit structure of `rt_serial_close` (`:507-530`). -/
def closeTx : SerialDevice :=
  let (p, freed, openFlag) := release dev.openFlag flagIntTx flagDmaTx dev.serialTx dev.freed
  { dev with serialTx := p, freed := freed, openFlag := openFlag }

/-- `rt_serial_close` (`:461-533`). -/
def rtSerialClose : SerialDevice := if 1 < dev.refCount then dev else dev.closeRx.closeTx

/-- `rt_device_close` (`device.c:239-264`). -/
def rtDeviceClose : RtErr × SerialDevice :=
  if dev.refCount = 0 then (.error, dev)
  else
    let dev := { dev with refCount := dev.refCount - 1 }
    if dev.refCount ≠ 0 then (.eok, dev)
    else (.eok, { dev.rtSerialClose with openFlag := oflagClose })

/-- The structure that `rt_serial_read` takes `serial_rx` for (`:547-556` and `248`). -/
def readStruct : Option SerialStruct :=
  if hasFlag dev.openFlag flagIntRx then some .rxFifo
  else if hasFlag dev.openFlag flagDmaRx then some (if dev.bufsz = 0 then .rxDma else .rxFifo)
  else none

/-- The structure that `rt_serial_write` takes `serial_tx` for (`:573-584`). -/
def writeStruct : Option SerialStruct :=
  if hasFlag dev.openFlag flagIntTx then some .txFifo
  else if hasFlag dev.openFlag flagDmaTx then some .txDma
  else none

end Functions

inductive Op
  /-- `rt_device_open(dev, oflag)` -/
  | open (oflag : BitVec 16)
  /-- `rt_device_close(dev)` -/
  | close

/-- Opens that succeed, and closes that match one. -/
def Enabled (dev : SerialDevice) : Op → Prop
  | .open oflag => (dev.rtDeviceOpen oflag).1 = .eok
  | .close => dev.refCount ≠ 0

def apply (dev : SerialDevice) : Op → RtErr × SerialDevice
  | .open oflag => dev.rtDeviceOpen oflag
  | .close => dev.rtDeviceClose

def machine : Machine SerialDevice Op RtErr := ⟨Enabled, apply⟩

instance (dev : SerialDevice) (op : Op) : Decidable (machine.Enabled dev op) :=
  match op with
  | .open _ => decEq _ _
  | .close => instDecidableNot

/-- The two mode bits are those of the structure that the pointer leads to. -/
def ModeIs (flags intBit dmaBit : BitVec 16) (p : Option SerialPtr) : Prop :=
  (hasFlag flags intBit = true ↔ p.map SerialPtr.mode = some .int) ∧
    (hasFlag flags dmaBit = true ↔ p.map SerialPtr.mode = some .dma)

instance (flags intBit dmaBit : BitVec 16) (p : Option SerialPtr) :
    Decidable (ModeIs flags intBit dmaBit p) :=
  instDecidableAnd

/-- `open_flag` has the mode bits of the structures, and they are used as what they are. -/
structure Consistent (dev : SerialDevice) : Prop where
  rx : ModeIs dev.openFlag flagIntRx flagDmaRx dev.serialRx
  tx : ModeIs dev.openFlag flagIntTx flagDmaTx dev.serialTx
  read : dev.readStruct = dev.serialRx.map SerialPtr.struct
  write : dev.writeStruct = dev.serialTx.map SerialPtr.struct

/-- The device is closed, and every structure was freed once. -/
structure Released (dev : SerialDevice) : Prop where
  rx : dev.serialRx = none
  tx : dev.serialTx = none
  freed : dev.freed.Perm (range dev.allocated)

/-- An open asks for one mode at most in each direction and, if the device is open, for the modes of
the structures that it has; the reference count has room. -/
def SameMode (dev : SerialDevice) : Op → Prop
  | .open oflag =>
    ¬ (hasFlag oflag flagIntRx ∧ hasFlag oflag flagDmaRx) ∧
    ¬ (hasFlag oflag flagIntTx ∧ hasFlag oflag flagDmaTx) ∧
    (dev.refCount ≠ 0 → (dev.serialRx ≠ none → ModeIs oflag flagIntRx flagDmaRx dev.serialRx) ∧
      (dev.serialTx ≠ none → ModeIs oflag flagIntTx flagDmaTx dev.serialTx)) ∧
    dev.refCount ≠ 255
  | .close => True

instance (dev : SerialDevice) (op : Op) : Decidable (dev.SameMode op) :=
  match op with
  | .open _ => instDecidableAnd
  | .close => .isTrue trivial

def ids (p : Option SerialPtr) : List Nat := p.toList.map SerialPtr.id

/-- The structure of a pointer is the one of its mode. -/
def StructIs (intStruct dmaStruct : SerialStruct) (p : Option SerialPtr) : Prop :=
  ∀ x ∈ p, x.struct = match x.mode with
    | .int => intStruct
    | .dma => dmaStruct

section Direction
variable {oflag flags intBit dmaBit : BitVec 16} {intStruct dmaStruct : SerialStruct}
  {p : Option SerialPtr} {n : Nat} {xs : List Nat}

theorem acquire_mode (hone : ¬ (hasFlag oflag intBit ∧ hasFlag oflag dmaBit))
    (hsame : p ≠ none → ModeIs oflag intBit dmaBit p) :
    ModeIs oflag intBit dmaBit (acquire oflag intBit dmaBit intStruct dmaStruct p n).1 := by
  rw [acquire]
  split
  · split
    · rename_i hdma
      exact ⟨by simpa [hdma] using hone, by simp [hdma]⟩
    · rename_i hdma
      split
      all_goals
        rename_i hint
        exact ⟨by simp [hint], by simp [hdma]⟩
  · rename_i hp
    exact hsame hp

theorem acquire_struct (h : StructIs intStruct dmaStruct p) :
    StructIs intStruct dmaStruct (acquire oflag intBit dmaBit intStruct dmaStruct p n).1 := by
  rw [acquire]
  repeat' split
  all_goals simp_all [StructIs]

theorem acquire_ids (h : (ids p ++ xs).Perm (range n)) :
    (ids (acquire oflag intBit dmaBit intStruct dmaStruct p n).1 ++ xs).Perm
      (range (acquire oflag intBit dmaBit intStruct dmaStruct p n).2.1) := by
  have hnew : xs.Perm (range n) → (n :: xs).Perm (range (n + 1)) := by
    intro hxs
    rw [range_succ]
    exact (hxs.cons n).trans (perm_append_singleton n _).symm
  rw [acquire]
  split
  · rename_i hp
    subst hp
    split
    · exact hnew h
    · split
      · exact hnew h
      · exact h
  · exact h

theorem release_of_mode (h : ModeIs flags intBit dmaBit p) (freed : List Nat) :
    (release flags intBit dmaBit p freed).1 = none ∧
      (release flags intBit dmaBit p freed).2.1 = freed ++ ids p := by
  rw [release]
  split
  · exact ⟨rfl, rfl⟩
  · rename_i hint
    split
    · exact ⟨rfl, rfl⟩
    · rename_i hdma
      have hnone : p = none := by
        cases p with
        | none => rfl
        | some x =>
          cases hx : x.mode with
          | int => exact absurd (h.1.mpr (by simp [hx])) hint
          | dma => exact absurd (h.2.mpr (by simp [hx])) hdma
      subst hnone
      simp [ids]

theorem release_flags {bit : BitVec 16} (hint : ~~~intBit &&& bit = bit)
    (hdma : ~~~dmaBit &&& bit = bit) :
    hasFlag (release flags intBit dmaBit p xs).2.2 bit = hasFlag flags bit := by
  rw [release]
  split
  · exact hasFlag_and_not hint
  · split
    · exact hasFlag_and_not hdma
    · rfl

theorem ModeIs.congr {flags' : BitVec 16} (h : ModeIs flags intBit dmaBit p)
    (hint : hasFlag flags' intBit = hasFlag flags intBit)
    (hdma : hasFlag flags' dmaBit = hasFlag flags dmaBit) : ModeIs flags' intBit dmaBit p := by
  rw [ModeIs, hint, hdma]
  exact h

theorem struct_of_mode (h : ModeIs flags intBit dmaBit p) (hs : StructIs intStruct dmaStruct p) :
    (if hasFlag flags intBit then some intStruct
      else if hasFlag flags dmaBit then some dmaStruct else none) = p.map SerialPtr.struct := by
  cases p with
  | none =>
    rw [if_neg (by simpa using h.1), if_neg (by simpa using h.2)]
    rfl
  | some x =>
    have hx := hs x rfl
    cases hm : x.mode with
    | int =>
      rw [hm] at hx
      rw [if_pos (h.1.mpr (by simp [hm]))]
      simp [hx]
    | dma =>
      rw [hm] at hx
      have hint : ¬ hasFlag flags intBit = true := by simp [h.1, hm]
      rw [if_neg hint, if_pos (h.2.mpr (by simp [hm]))]
      simp [hx]

end Direction

/-- Every structure that was allocated is in use, or it was freed once. -/
def HeapOk (dev : SerialDevice) : Prop :=
  (ids dev.serialRx ++ (ids dev.serialTx ++ dev.freed)).Perm (range dev.allocated)

structure Ok (dev : SerialDevice) : Prop where
  activated : hasFlag dev.flag flagActivated = true
  rx : ModeIs dev.openFlag flagIntRx flagDmaRx dev.serialRx
  tx : ModeIs dev.openFlag flagIntTx flagDmaTx dev.serialTx
  rxStruct : StructIs .rxFifo (if dev.bufsz = 0 then .rxDma else .rxFifo) dev.serialRx
  txStruct : StructIs .txFifo .txDma dev.serialTx
  heap : dev.HeapOk
  closed : dev.refCount = 0 → dev.serialRx = none ∧ dev.serialTx = none

/-- A device that is not initialized. Its pointers may hold anything. -/
structure Registered (dev : SerialDevice) : Prop where
  refCount : dev.refCount = 0
  openFlag : dev.openFlag = 0
  allocated : dev.allocated = 0
  freed : dev.freed = []
  pointers : hasFlag dev.flag flagActivated = true → dev.serialRx = none ∧ dev.serialTx = none

variable {dev : SerialDevice} {oflag : BitVec 16}

theorem HeapOk.openRx (h : dev.HeapOk) : (dev.openRx oflag).HeapOk := acquire_ids h

theorem HeapOk.openTx (h : dev.HeapOk) : (dev.openTx oflag).HeapOk :=
  perm_append_comm_assoc _ _ _ |>.trans (acquire_ids ((perm_append_comm_assoc _ _ _).trans h))

theorem openActivated_of_eok (hok : (dev.openActivated oflag).1 = .eok) :
    (dev.openActivated oflag).2 =
      let dev' := ({ dev with openFlag := oflag &&& 0xff }.openRx oflag).openTx oflag
      { dev' with openFlag := oflag ||| oflagOpen, refCount := dev.refCount + 1 } := by
  rw [openActivated] at hok ⊢
  by_cases hbusy : hasFlag dev.flag flagStandalone ∧ hasFlag dev.openFlag oflagOpen
  · rw [if_pos hbusy] at hok
    cases hok
  · rw [if_neg hbusy] at hok ⊢
    by_cases hlacks : dev.lacksMode oflag = true
    · rw [rtSerialOpen, if_pos hlacks] at hok
      cases hok
    · rw [rtSerialOpen, if_neg hlacks]
      rfl

theorem Ok.openActivated (h : dev.Ok) (hsame : dev.SameMode (.open oflag))
    (hok : (dev.openActivated oflag).1 = .eok) : (dev.openActivated oflag).2.Ok := by
  obtain ⟨hrx, htx, hopen, hroom⟩ := hsame
  have hsrx : dev.serialRx ≠ none → ModeIs oflag flagIntRx flagDmaRx dev.serialRx := by
    intro hne
    exact (hopen fun hzero => hne (h.closed hzero).1).1 hne
  have hstx : dev.serialTx ≠ none → ModeIs oflag flagIntTx flagDmaTx dev.serialTx := by
    intro hne
    exact (hopen fun hzero => hne (h.closed hzero).2).2 hne
  have hheap : HeapOk { dev with openFlag := oflag &&& 0xff } := h.heap
  rw [openActivated_of_eok hok]
  refine ⟨h.activated, ?_, ?_, acquire_struct h.rxStruct, acquire_struct h.txStruct,
    hheap.openRx.openTx, ?_⟩
  · exact (acquire_mode hrx hsrx).congr hasFlag_or hasFlag_or
  · exact (acquire_mode htx hstx).congr hasFlag_or hasFlag_or
  · intro hzero
    exact absurd hzero (by bv_omega)

theorem close_of_mode (hrx : ModeIs dev.openFlag flagIntRx flagDmaRx dev.serialRx)
    (htx : ModeIs dev.openFlag flagIntTx flagDmaTx dev.serialTx) :
    dev.closeRx.closeTx.serialRx = none ∧ dev.closeRx.closeTx.serialTx = none ∧
      dev.closeRx.closeTx.freed = dev.freed ++ ids dev.serialRx ++ ids dev.serialTx := by
  obtain ⟨hrx', hfreed⟩ := release_of_mode hrx dev.freed
  have hflags : ModeIs dev.closeRx.openFlag flagIntTx flagDmaTx dev.closeRx.serialTx :=
    htx.congr (release_flags (by decide) (by decide)) (release_flags (by decide) (by decide))
  obtain ⟨htx', hfreed'⟩ := release_of_mode hflags dev.closeRx.freed
  refine ⟨hrx', htx', hfreed'.trans ?_⟩
  change dev.closeRx.freed ++ ids dev.serialTx = _
  rw [show dev.closeRx.freed = dev.freed ++ ids dev.serialRx from hfreed]

theorem ok_of_closed (hactivated : hasFlag dev.flag flagActivated = true)
    (hflag : dev.openFlag = oflagClose) (h : dev.Released) : dev.Ok := by
  obtain ⟨hrx, htx, hfreed⟩ := h
  refine ⟨hactivated, ?_, ?_, ?_, ?_, ?_, fun _ => ⟨hrx, htx⟩⟩
  · rw [hrx, hflag]
    decide
  · rw [htx, hflag]
    decide
  · rw [hrx]
    nofun
  · rw [htx]
    nofun
  · rw [HeapOk, hrx, htx]
    exact hfreed

theorem Ok.rtDeviceClose (h : dev.Ok) (hopen : dev.refCount ≠ 0) : dev.rtDeviceClose.2.Ok := by
  rw [SerialDevice.rtDeviceClose, if_neg hopen]
  dsimp only
  split
  · rename_i hmore
    exact ⟨h.activated, h.rx, h.tx, h.rxStruct, h.txStruct, h.heap, fun hzero => absurd hzero hmore⟩
  · rename_i hlast
    rw [not_not] at hlast
    let counted := { dev with refCount := dev.refCount - 1 }
    have hclose : counted.rtSerialClose = counted.closeRx.closeTx := by
      rw [rtSerialClose, if_neg]
      change ¬ 1 < dev.refCount - 1
      rw [hlast]
      decide
    obtain ⟨hrx, htx, hfreed⟩ := @close_of_mode counted h.rx h.tx
    rw [hclose]
    refine ok_of_closed h.activated rfl ⟨hrx, htx, ?_⟩
    have hheap : (ids dev.serialRx ++ (ids dev.serialTx ++ dev.freed)).Perm
      (range dev.allocated) := h.heap
    rw [hfreed, append_assoc]
    refine perm_append_comm.trans ?_
    rw [append_assoc]
    exact hheap

theorem Registered.rtDeviceOpen (h : dev.Registered) (hsame : dev.SameMode (.open oflag))
    (hok : (dev.rtDeviceOpen oflag).1 = .eok) : (dev.rtDeviceOpen oflag).2.Ok := by
  have hfreed : dev.freed.Perm (range dev.allocated) := by
    rw [h.freed, h.allocated]
    exact Perm.refl _
  by_cases hactivated : hasFlag dev.flag flagActivated = true
  · rw [SerialDevice.rtDeviceOpen, if_pos hactivated] at hok ⊢
    obtain ⟨hrx, htx⟩ := h.pointers hactivated
    exact (ok_of_closed hactivated h.openFlag ⟨hrx, htx, hfreed⟩).openActivated hsame hok
  · rw [SerialDevice.rtDeviceOpen, if_neg hactivated] at hok ⊢
    rw [rtSerialInit] at hok ⊢
    obtain ⟨hrx, htx, -, hroom⟩ := hsame
    cases hconfigure : dev.configure with
    | eok =>
      simp only [hconfigure] at hok ⊢
      have hinit : Ok { dev with
          flag := dev.flag ||| flagActivated
          configure := .eok
          serialRx := none
          serialTx := none } :=
        ok_of_closed (hasFlag_or_self (by decide)) h.openFlag ⟨rfl, rfl, hfreed⟩
      exact hinit.openActivated ⟨hrx, htx, fun hopen => absurd h.refCount hopen, hroom⟩ hok
    | _ =>
      simp only [hconfigure] at hok
      cases hok

/-- Registered and not opened yet, or with the invariant. -/
def Inv (dev : SerialDevice) : Prop := dev.Registered ∨ dev.Ok

theorem Inv.step {dev' : SerialDevice} {e : Op × RtErr} (h : dev.Inv)
    (hstep : machine.StepIf SameMode dev e dev') : dev'.Ok := by
  obtain ⟨op, r⟩ := e
  obtain ⟨⟨henabled, happly⟩, hsame⟩ := hstep
  obtain rfl : dev' = (dev.apply op).2 := (congrArg Prod.snd happly).symm
  cases op with
  | «open» oflag =>
    obtain h | h := h
    · exact h.rtDeviceOpen hsame henabled
    · have hok : (dev.rtDeviceOpen oflag).1 = .eok := henabled
      change (dev.rtDeviceOpen oflag).2.Ok
      rw [rtDeviceOpen, if_pos h.activated] at hok ⊢
      exact h.openActivated hsame hok
  | close =>
    obtain h | h := h
    · exact absurd h.refCount henabled
    · exact h.rtDeviceClose henabled

theorem Ok.consistent (h : dev.Ok) : dev.Consistent :=
  ⟨h.rx, h.tx, struct_of_mode h.rx h.rxStruct, struct_of_mode h.tx h.txStruct⟩

/-- If every open asks for the modes in which the device is open already, `open_flag` tells the
structures while the device is open, and after the last close all were freed once. -/
theorem consistent_of_sameMode {dev₀ : SerialDevice} {tr : List (Op × RtErr)}
    (hstart : dev₀.Registered) (hrun : Run (machine.StepIf SameMode) dev₀ tr dev) :
    (dev.refCount ≠ 0 → dev.Consistent) ∧ (tr ≠ [] → dev.refCount = 0 → dev.Released) := by
  have hinv : (tr = [] ∧ dev.Registered) ∨ dev.Ok := by
    refine hrun.invariant
      (.inl ⟨rfl, hstart⟩) fun tr dev e dev' h hstep => .inr ?_
    exact Inv.step (h.imp And.right id) hstep
  obtain ⟨hnil, h⟩ | h := hinv
  · exact ⟨fun hopen => absurd h.refCount hopen, fun hne => absurd hnil hne⟩
  · refine ⟨fun _ => h.consistent, fun _ hzero => ?_⟩
    obtain ⟨hrx, htx⟩ := h.closed hzero
    have hheap := h.heap
    rw [HeapOk, hrx, htx] at hheap
    exact ⟨hrx, htx, hheap⟩

/-- The console: a device with interrupts and DMA in both directions. -/
def console : SerialDevice where
  flag := 0xf03
  openFlag := 0
  refCount := 0
  bufsz := 64
  configure := .eok
  serialRx := none
  serialTx := none
  allocated := 0
  freed := []
  queueArrays := 0

theorem console_registered : console.Registered where
  refCount := rfl
  openFlag := rfl
  allocated := rfl
  freed := rfl
  pointers _ := ⟨rfl, rfl⟩

/-- The console and the shell open the device in the same mode, and both close it. -/
theorem consistent_of_sameMode_twice :
    ∃ tr dev, Run (machine.StepIf SameMode) console tr dev ∧ tr.length = 4 ∧ dev.allocated = 2 ∧
      dev.Released := by
  have hrun := machine.run_exec SameMode console [.open 0x943, .open 0x903, .close, .close]
  refine ⟨_, _, hrun, by decide +kernel, by decide +kernel, ?_⟩
  exact (consistent_of_sameMode console_registered hrun).2 (by decide +kernel) (by decide +kernel)

/-- The second open has no receive mode: the flags do not tell the FIFO any more, and the last close
does not free it. -/
theorem second_open_loses_fifo : console.Registered ∧
      (∃ tr dev, Run machine.Step console tr dev ∧ dev.refCount ≠ 0 ∧ ¬ dev.Consistent) ∧
      ∃ tr dev, Run machine.Step console tr dev ∧ tr ≠ [] ∧ dev.refCount = 0 ∧ ¬ dev.Released := by
  refine ⟨console_registered, ?_, ?_⟩
  · have hrun := machine.run_steps console [.open 0x143, .open 0x003]
    refine ⟨_, _, hrun, by decide +kernel, fun h => ?_⟩
    exact absurd h.rx (by decide +kernel)
  · have hrun := machine.run_steps console
      [.open 0x143, .open 0x003, .close, .close]
    refine ⟨_, _, hrun, by decide +kernel, by decide +kernel, fun h => ?_⟩
    exact absurd h.rx (by decide +kernel)

end SerialDevice
end RtThread
