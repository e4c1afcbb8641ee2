import RtThread.Kernel.State

/-!
# The SPI bus

`spi_core.c` on the driver of `rt_gd32f20x_spi.c`. A transfer sets the bus up only if it was set up
for another device. A transaction in two parts takes the chip select with its first message and
releases it with the second one; a message of length zero counts as a failure.
-/

namespace RtThread
open Function

/-- `struct rt_spi_configuration` (`spi.h:73-80`). -/
structure SpiConfiguration where
  mode : BitVec 8
  dataWidth : BitVec 8
  maxHz : BitVec 32
  deriving DecidableEq

/-- `struct rt_spi_message` (`spi.h:59-68`); a chain of them is a list. -/
structure SpiMessage where
  sendBuf : BitVec 32
  recvBuf : BitVec 32
  length : BitVec 32
  csTake : Bool
  csRelease : Bool
  deriving DecidableEq

/-- A call of `ops->xfer`, with the setting of the bus and `device->config` at the time. -/
structure XferCall (δ : Type*) where
  device : δ
  message : SpiMessage
  setting : Option (δ × SpiConfiguration)
  config : SpiConfiguration

/-- A bus with the configurations of its devices. `hold` is how often the caller has taken the lock,
`cs` whether the chip select is asserted, `setting` the last `configure` that succeeded. -/
structure SpiBus (δ : Type*) where
  owner : Option δ
  config : δ → SpiConfiguration
  hold : Nat
  cs : Bool
  setting : Option (δ × SpiConfiguration)
  xfers : List (XferCall δ)

namespace SpiBus

section
variable {δ : Type*} (s : SpiBus δ) (d : δ)

/-- `xfer` (`rt_gd32f20x_spi.c:191-285`) without the bytes it moves. -/
def xfer (m : SpiMessage) : BitVec 32 × SpiBus δ :=
  let cs := if m.csTake then true else s.cs
  (m.length, { s with
    cs := if m.csRelease then false else cs
    xfers := s.xfers ++ [⟨d, m, s.setting, s.config d⟩] })

/-- The loop of `rt_spi_transfer_message`, up to a message that fails. -/
def xferAll : List SpiMessage → SpiBus δ → List SpiMessage × SpiBus δ
  | [], s => ([], s)
  | m :: ms, s =>
    let (n, s) := s.xfer d m
    if n = 0 then (m :: ms, s) else xferAll ms s

/-- The setting is that of the owner, and it is out of date only if it could not be made. -/
structure Follows : Prop where
  owner : ∀ d, s.owner = some d → ∃ c, s.setting = some (d, c) ∧ c.dataWidth ≤ 16#8 ∧
      ((s.config d).dataWidth ≤ 16#8 → c = s.config d)
  xfers : ∀ x ∈ s.xfers, x.setting = some (x.device, x.config) ↔ x.config.dataWidth ≤ 16#8

variable {s d}

theorem Follows.xfer (h : s.Follows) (howner : s.owner = some d) (m : SpiMessage) :
    (s.xfer d m).2.Follows := by
  refine ⟨h.owner, fun x hx => ?_⟩
  rcases List.mem_append.mp hx with hx | hx
  · exact h.xfers x hx
  · obtain ⟨c, hsetting, hc, hcurrent⟩ := h.owner d howner
    rw [List.mem_singleton.mp hx]
    constructor
    · intro heq
      have hconfig := (Prod.mk.inj (Option.some.inj (hsetting.symm.trans heq))).2
      exact hconfig ▸ hc
    · intro hwidth
      rw [hsetting, hcurrent hwidth]

theorem Follows.hold (h : s.Follows) (n : Nat) : { s with hold := n }.Follows := ⟨h.owner, h.xfers⟩

theorem Follows.xferAll (ms : List SpiMessage) (s : SpiBus δ) (h : s.Follows)
    (howner : s.owner = some d) : (xferAll d ms s).2.Follows := by
  induction ms generalizing s with
  | nil => exact h
  | cons m ms ih =>
    unfold SpiBus.xferAll
    dsimp only
    split_ifs
    · exact h.xfer howner m
    · exact ih _ (h.xfer howner m) howner

end

variable {δ : Type*} [DecidableEq δ] (s : SpiBus δ) (d : δ)

/-- `configure` (`rt_gd32f20x_spi.c:121-189`). -/
def configure (c : SpiConfiguration) : Bool × SpiBus δ :=
  if c.dataWidth ≤ 16#8 then (true, { s with setting := some (d, c) }) else (false, s)

/-- The bus is set up for the device if it is not the owner. -/
def own : Bool × SpiBus δ :=
  if s.owner = some d then (true, s)
  else
    let (ok, s) := s.configure d (s.config d)
    if ok then (true, { s with owner := some d }) else (false, s)

/-- What the transfers do around their messages; `taken` is whether `rt_mutex_take` succeeds. -/
def transaction {α : Type*} (taken : Bool) (failed : α) (body : SpiBus δ → α × SpiBus δ) :
    α × SpiBus δ :=
  if taken then
    let (ok, s) := { s with hold := s.hold + 1 }.own d
    let (result, s) := if ok then body s else (failed, s)
    (result, { s with hold := s.hold - 1 })
  else (failed, s)

/-- Two messages in one transaction. -/
def sendThen (taken : Bool) (m1 m2 : SpiMessage) : RtErr × SpiBus δ :=
  s.transaction d taken .eio fun s =>
    let (n, s) := s.xfer d m1
    if n = 0 then (.eio, s)
    else
      let (n, s) := s.xfer d m2
      (if n = 0 then .eio else .eok, s)

/-- `rt_spi_send_then_send` (`spi_core.c:102-175`). -/
def rtSpiSendThenSend (taken : Bool) (sendBuf1 sendLength1 sendBuf2 sendLength2 : BitVec 32) :
    RtErr × SpiBus δ :=
  s.sendThen d taken ⟨sendBuf1, 0, sendLength1, true, false⟩ ⟨sendBuf2, 0, sendLength2, false, true⟩

/-- `rt_spi_send_then_recv` (`:177-249`). -/
def rtSpiSendThenRecv (taken : Bool) (sendBuf sendLength recvBuf recvLength : BitVec 32) :
    RtErr × SpiBus δ :=
  s.sendThen d taken ⟨sendBuf, 0, sendLength, true, false⟩ ⟨0, recvBuf, recvLength, false, true⟩

/-- `rt_spi_transfer` (`:251-310`). -/
def rtSpiTransfer (taken : Bool) (sendBuf recvBuf length : BitVec 32) : BitVec 32 × SpiBus δ :=
  s.transaction d taken 0 fun s => s.xfer d ⟨sendBuf, recvBuf, length, true, true⟩

/-- `rt_spi_transfer_message` (`:312-369`). -/
def rtSpiTransferMessage (taken : Bool) (message : List SpiMessage) :
    List SpiMessage × SpiBus δ :=
  if message = [] then ([], s) else s.transaction d taken message (xferAll d message)

/-- `rt_spi_take_bus` (`:371-413`). -/
def rtSpiTakeBus (taken : Bool) : RtErr × SpiBus δ :=
  if taken then
    let (ok, s) := { s with hold := s.hold + 1 }.own d
    if ok then (.eok, s) else (.eio, { s with hold := s.hold - 1 })
  else (.ebusy, s)

/-- `rt_spi_release_bus` (`:415-425`). -/
def rtSpiReleaseBus : SpiBus δ := { s with hold := s.hold - 1 }

/-- `rt_spi_configure` (`:72-100`); what `configure` returns is not looked at. -/
def rtSpiConfigure (taken : Bool) (cfg : SpiConfiguration) : SpiBus δ :=
  let c := { cfg with mode := cfg.mode &&& 7 }
  let s := { s with config := update s.config d c }
  if taken ∧ s.owner = some d then (s.configure d c).2 else s

/-- The chip select is not asserted, and the caller does not hold the lock. -/
def Idle : Prop := s.cs = false ∧ s.hold = 0

theorem own_same : (s.own d).2.cs = s.cs ∧ (s.own d).2.hold = s.hold := by
  unfold own configure
  split_ifs <;> exact ⟨rfl, rfl⟩

theorem own_hold (n : Nat) : ({ s with hold := n }.own d).1 = (s.own d).1 := by
  unfold own configure
  split_ifs <;> rfl

theorem sendThen_idle_iff (taken : Bool) (m1 m2 : SpiMessage) (h1 : m1.csTake ∧ ¬ m1.csRelease)
    (h2 : m2.csRelease) : (s.Idle → (s.sendThen d taken m1 m2).2.Idle) ↔
      (s.Idle ∧ taken ∧ (s.own d).1 → m1.length ≠ 0) := by
  obtain ⟨hcs, hhold⟩ := own_same { s with hold := s.hold + 1 } d
  rw [← own_hold s d (s.hold + 1)]
  unfold sendThen transaction
  cases taken with
  | false => simp
  | true =>
    generalize { s with hold := s.hold + 1 }.own d = r at *
    obtain ⟨ok, s'⟩ := r
    cases ok with
    | false => simp_all [Idle]
    | true => by_cases hn : m1.length = 0 <;> simp_all [Idle, xfer]

/-- A transaction in two parts leaves the chip select as it was exactly if it does not come to its
messages or the first one has a length. -/
theorem cs_released_iff (s : SpiBus δ) (d : δ) (taken : Bool)
    (buf1 length1 buf2 length2 : BitVec 32) :
    ((s.Idle → (s.rtSpiSendThenSend d taken buf1 length1 buf2 length2).2.Idle) ↔
      (s.Idle ∧ taken ∧ (s.own d).1 → length1 ≠ 0)) ∧
    ((s.Idle → (s.rtSpiSendThenRecv d taken buf1 length1 buf2 length2).2.Idle) ↔
      (s.Idle ∧ taken ∧ (s.own d).1 → length1 ≠ 0)) ∧
    (s.Idle → (s.rtSpiTransfer d taken buf1 buf2 length1).2.Idle) := by
  refine ⟨sendThen_idle_iff s d taken _ _ ⟨rfl, nofun⟩ rfl,
    sendThen_idle_iff s d taken _ _ ⟨rfl, nofun⟩ rfl, ?_⟩
  obtain ⟨hcs, hhold⟩ := own_same { s with hold := s.hold + 1 } d
  intro hidle
  unfold rtSpiTransfer transaction
  cases taken with
  | false => exact hidle
  | true =>
    generalize { s with hold := s.hold + 1 }.own d = r at *
    obtain ⟨ok, s'⟩ := r
    cases ok <;> simp_all [Idle, xfer]

/-- A bus as it is registered, with devices as they are attached. -/
def start : SpiBus δ := ⟨none, fun _ => ⟨0, 0, 0⟩, 0, false, none, []⟩

/-- A command without bytes asserts the chip select for good. -/
theorem cs_left_asserted :
    ((start : SpiBus Unit).rtSpiSendThenRecv () true 0x20000000 0 0x20000100 4).2.cs = true := by
  decide

inductive Op (δ : Type*)
  | configure (d : δ) (cfg : SpiConfiguration)
  | takeBus (d : δ)
  | releaseBus
  | transfer (d : δ) (sendBuf recvBuf length : BitVec 32)
  | sendThenSend (d : δ) (sendBuf1 sendLength1 sendBuf2 sendLength2 : BitVec 32)
  | sendThenRecv (d : δ) (sendBuf sendLength recvBuf recvLength : BitVec 32)
  | transferMessage (d : δ) (message : List SpiMessage)

/-- The bus behind a call. The calls of a run follow each other, so the lock is always given. -/
def apply : Op δ → SpiBus δ
  | .configure d cfg => s.rtSpiConfigure d true cfg
  | .takeBus d => (s.rtSpiTakeBus d true).2
  | .releaseBus => s.rtSpiReleaseBus
  | .transfer d sendBuf recvBuf length => (s.rtSpiTransfer d true sendBuf recvBuf length).2
  | .sendThenSend d buf1 n1 buf2 n2 => (s.rtSpiSendThenSend d true buf1 n1 buf2 n2).2
  | .sendThenRecv d buf1 n1 buf2 n2 => (s.rtSpiSendThenRecv d true buf1 n1 buf2 n2).2
  | .transferMessage d message => (s.rtSpiTransferMessage d true message).2

variable {s d}

theorem Follows.own (h : s.Follows) :
    (s.own d).2.Follows ∧ ((s.own d).1 → (s.own d).2.owner = some d) := by
  unfold SpiBus.own SpiBus.configure
  split_ifs with howner hwidth
  · exact ⟨h, fun _ => howner⟩
  · refine ⟨⟨fun d' hd => ?_, h.xfers⟩, fun _ => rfl⟩
    cases hd
    exact ⟨_, rfl, hwidth, fun _ => rfl⟩
  · exact ⟨h, nofun⟩

theorem Follows.transaction {α : Type*} {taken : Bool} {failed : α}
    {body : SpiBus δ → α × SpiBus δ} (h : s.Follows)
    (hbody : ∀ s, s.Follows → s.owner = some d → (body s).2.Follows) :
    (s.transaction d taken failed body).2.Follows := by
  obtain ⟨hown, howner⟩ := (h.hold (s.hold + 1)).own
  unfold SpiBus.transaction
  split_ifs
  · dsimp only
    split_ifs with hok
    · exact (hbody _ hown (howner hok)).hold _
    · exact hown.hold _
  · exact h

theorem Follows.sendThen (h : s.Follows) (taken : Bool) (m1 m2 : SpiMessage) :
    (s.sendThen d taken m1 m2).2.Follows := by
  refine h.transaction fun s h howner => ?_
  have h1 := h.xfer howner m1
  dsimp only
  split
  · exact h1
  · exact h1.xfer howner m2

theorem Follows.rtSpiConfigure (h : s.Follows) (cfg : SpiConfiguration) :
    (s.rtSpiConfigure d true cfg).Follows := by
  unfold SpiBus.rtSpiConfigure SpiBus.configure
  dsimp only
  split_ifs with howner hwidth
  · refine ⟨fun d' hd => ?_, h.xfers⟩
    cases howner.2.symm.trans hd
    exact ⟨_, rfl, hwidth, fun _ => (update_self d _ s.config).symm⟩
  · refine ⟨fun d' hd => ?_, h.xfers⟩
    cases howner.2.symm.trans hd
    obtain ⟨c, hsetting, hc, -⟩ := h.owner d hd
    exact ⟨c, hsetting, hc, fun hnew => absurd hnew (by simpa using hwidth)⟩
  · refine ⟨fun d' hd => ?_, h.xfers⟩
    have hne : d' ≠ d := fun heq => howner ⟨rfl, heq ▸ hd⟩
    simpa only [update_of_ne hne] using h.owner d' hd

theorem Follows.apply (h : s.Follows) (op : Op δ) : (s.apply op).Follows := by
  cases op with
  | configure d cfg => exact h.rtSpiConfigure cfg
  | takeBus d =>
    obtain ⟨hown, -⟩ := (h.hold (s.hold + 1)).own
    simp only [SpiBus.apply, SpiBus.rtSpiTakeBus, if_true]
    split
    · exact hown
    · exact hown.hold _
  | releaseBus => exact h.hold _
  | transfer d => exact h.transaction fun s h howner => h.xfer howner _
  | sendThenSend d | sendThenRecv d => exact h.sendThen true _ _
  | transferMessage d message =>
    simp only [SpiBus.apply, SpiBus.rtSpiTransferMessage]
    split
    · exact h
    · exact h.transaction (Follows.xferAll message)

/-- In every run, a transfer finds the bus set up with the current configuration of its device
exactly if the driver takes the data width of this configuration. -/
theorem xfer_configured_iff (ops : List (Op δ)) : ∀ x ∈ (ops.foldl apply start).xfers,
      x.setting = some (x.device, x.config) ↔ x.config.dataWidth ≤ 16#8 := by
  have hstart : (start : SpiBus δ).Follows := ⟨nofun, nofun⟩
  have hrun : ∀ (ops : List (Op δ)) (s : SpiBus δ), s.Follows → (ops.foldl apply s).Follows := by
    intro ops
    induction ops with
    | nil => exact fun s h => h
    | cons op ops ih => exact fun s h => ih _ (h.apply op)
  exact (hrun ops start hstart).xfers

theorem xfer_configured_iff_eight : ∃ x ∈ ([.configure () ⟨0, 8, 1000000⟩,
      .transfer () 0 0 1].foldl apply start).xfers, x.setting = some (x.device, x.config) := by
  refine ⟨⟨(), ⟨0, 0, 1, true, true⟩, some ((), ⟨0, 8, 1000000⟩), ⟨0, 8, 1000000⟩⟩, ?_, ?_⟩
  · exact List.mem_cons_self
  · exact (xfer_configured_iff [.configure () ⟨0, 8, 1000000⟩, .transfer () 0 0 1] _
      List.mem_cons_self).mpr (by decide)

/-- The owner asks for 17 bits, which the driver does not do, and goes on with 8 bits. -/
theorem xfer_not_configured : ∃ x ∈ ([.configure () ⟨0, 8, 1000000⟩, .transfer () 0 0 1,
      .configure () ⟨0, 17, 1000000⟩, .transfer () 0 0 1].foldl apply start).xfers,
      x.setting = some ((), ⟨0, 8, 1000000⟩) ∧ x.config = ⟨0, 17, 1000000⟩ := by
  refine ⟨⟨(), ⟨0, 0, 1, true, true⟩, some ((), ⟨0, 8, 1000000⟩), ⟨0, 17, 1000000⟩⟩, ?_, rfl, rfl⟩
  exact List.mem_cons_of_mem _ List.mem_cons_self

end SpiBus
end RtThread
