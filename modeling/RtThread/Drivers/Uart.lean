import RtThread.Lib.Run

/-!
# The interrupts of a UART

`usart.c` for a device that is open with `RT_DEVICE_FLAG_INT_RX` and `RT_DEVICE_FLAG_INT_TX`,
between the writers of `_serial_int_tx` (`serial.c:137-160`) and `uart_isr`. When a transmission is
complete, `uart_isr` disables `USART_INT_RBNE` and leaves `USART_INT_TC` enabled.
-/

namespace RtThread
open Function

/-- A writer is behind the test of `USART_FLAG_TBE` in `stm32_putc`, with a byte `sent` or not, or
in `rt_completion_wait`. -/
inductive WriterPc
  | idle
  | enabling (sent : Bool)
  | waiting
  deriving DecidableEq

/-- The enable bits of RBNE and TC, whether a byte was sent and not reported by
`RT_SERIAL_EVENT_TX_DONE`, and the completion. -/
structure Uart (κ : Type*) where
  rbneInt : Bool
  tcInt : Bool
  unreported : Bool
  completed : Bool
  pc : κ → WriterPc

inductive UartOp (κ : Type*)
  | putc (c : κ) (tbe : Bool)
  | enable (c : κ)
  | wait (c : κ)
  | isr (tc : Bool)

namespace Uart
variable {κ : Type*} [DecidableEq κ]

/-- After `RT_DEVICE_CTRL_SET_INT`. -/
def opened : Uart κ := ⟨true, false, false, false, fun _ => .idle⟩

/-- A step of a writer (`usart.c:106-131`), or an interrupt with the flag TC (`usart.c:156-182`);
the other parts of `uart_isr` leave the enable bits alone. -/
def step (u : Uart κ) : UartOp κ → Uart κ
  | .putc c tbe =>
    if u.pc c = .idle then
      { u with unreported := u.unreported || tbe, pc := update u.pc c (.enabling tbe) }
    else u
  | .enable c =>
    match u.pc c with
    | .enabling sent => { u with
        tcInt := true, pc := update u.pc c (if sent then .idle else .waiting) }
    | _ => u
  | .wait c =>
    if u.pc c = .waiting ∧ u.completed then
      { u with completed := false, pc := update u.pc c .idle }
    else u
  | .isr tc =>
    if tc ∧ u.tcInt then { u with unreported := false, completed := true, rbneInt := false } else u

/-- Reception is enabled, and TC only while a byte has to be reported. -/
def Good (u : Uart κ) : Prop := u.rbneInt ∧ (u.tcInt → u.unreported)

/-- The step is not an interrupt of TC, and does not enable it without a byte to report. -/
def Safe (u : Uart κ) : UartOp κ → Prop
  | .enable c => ∀ sent, u.pc c = .enabling sent → u.unreported
  | .isr tc => ¬ (tc ∧ u.tcInt)
  | _ => True

theorem Good.step_iff {u : Uart κ} (h : u.Good) (op : UartOp κ) : (u.step op).Good ↔ u.Safe op := by
  obtain ⟨hrbne, htc⟩ := h
  -- a step that is not an interrupt keeps the enable bit of RBNE
  cases op
  all_goals
    rw [step]
    split <;> simp_all [Good, Safe]

/-- Reception stays enabled, and TC is enabled only for bytes to report, exactly in the runs in
which no interrupt of TC comes and no writer that was refused enables it before the first byte. -/
theorem reception_iff (ops : List (UartOp κ)) :
    Throughout step (fun u op => (u.step op).Good) opened ops ↔ Throughout step Safe opened ops :=
  throughout_iff Good.step_iff ⟨rfl, nofun⟩ ops

/-- The first byte is sent, and its interrupt disables reception. A writer that was refused enables
TC with nothing to report. -/
theorem reception_disabled :
    ([.putc () true, .enable (), .isr true].foldl step opened).rbneInt = false ∧
    ¬ ([.putc () false, .enable ()].foldl step opened).Good := by
  refine ⟨rfl, fun h => ?_⟩
  cases h.2 rfl

end Uart
end RtThread
