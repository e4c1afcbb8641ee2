import RtThread.Lib.Run
import Mathlib.Data.Fintype.Pi

/-!
# The descriptors of the Ethernet driver

`stm32_eth.c`, with one thread that sends and one that receives (`ethernetif.c`). An execution of
`ETH_IRQHandler` is one step: what the DMA completes inside it is as if it came before the handler,
or behind it if the status bit was not set when it was read.
-/

namespace RtThread
open Function

/-- `ETH_TXBUFNB` (`:3018`). -/
abbrev ethTxbufnb : Nat := 2

/-- `rt_stm32_eth_tx` waits in `rt_sem_take`, or is between it and the assignment of OWN. -/
inductive TxPc
  | idle
  | waiting
  | filling
  deriving DecidableEq

/-- `tx_buf_free.value`, OWN of the descriptors, `DMATxDescToSet`, the descriptor of the DMA, and T;
and the completions that no interrupt has reported, and those that were reported with another one.
-/
structure EthTx where
  value : Nat
  pc : TxPc
  own : Fin ethTxbufnb → Bool
  toSet : Fin ethTxbufnb
  dma : Fin ethTxbufnb
  t : Bool
  unreported : Nat
  merged : Nat

inductive EthTxOp
  | take
  | timeout
  | give
  | complete
  | irq

/-- The descriptors of the DMA are those from `dma` up to `toSet`. -/
def inRing (own : Fin ethTxbufnb → Bool) (toSet dma : Fin ethTxbufnb) : Bool :=
  ∀ i, own i = if toSet = dma then own dma else i = dma

def owned (own : Fin ethTxbufnb → Bool) : Nat := (own 0).toNat + (own 1).toNat

theorem ring_give : ∀ own toSet dma, inRing own toSet dma → owned own < ethTxbufnb →
    own toSet = false ∧ inRing (update own toSet true) (toSet + 1) dma ∧
      owned (update own toSet true) = owned own + 1 := by
  decide

theorem ring_complete : ∀ own toSet dma, inRing own toSet dma → own dma →
    inRing (update own dma false) toSet (dma + 1) ∧
      owned (update own dma false) + 1 = owned own := by
  decide

namespace EthTx

/-- After `rt_hw_stm32_eth_init` (`:3578-3579`). -/
def init : EthTx := ⟨ethTxbufnb, .idle, fun _ => false, 0, 0, false, 0, 0⟩

/-- A step of `rt_stm32_eth_tx` (`:3201-3281`), a completion, or `ETH_IRQHandler` (`:3054-3058`). -/
def step (s : EthTx) : EthTxOp → EthTx
  | .take =>
    if s.pc ≠ .idle then s
    else if 0 < s.value then { s with value := s.value - 1, pc := .filling }
    else { s with pc := .waiting }
  | .timeout => if s.pc = .waiting then { s with pc := .idle } else s
  | .give =>
    if s.pc = .filling then
      { s with pc := .idle, own := update s.own s.toSet true, toSet := s.toSet + 1 }
    else s
  | .complete =>
    if s.own s.dma then
      { s with
        own := update s.own s.dma false, dma := s.dma + 1, t := true
        unreported := s.unreported + 1 }
    else s
  | .irq =>
    if s.t then
      let s := { s with t := false, unreported := 0, merged := s.merged + (s.unreported - 1) }
      if s.pc = .waiting then { s with pc := .filling } else { s with value := s.value + 1 }
    else s

/-- Every descriptor is free, taken for the frame that is copied, with the DMA, or completed. -/
structure Inv (s : EthTx) : Prop where
  sum : s.value + (if s.pc = .filling then 1 else 0) + owned s.own + s.unreported + s.merged =
    ethTxbufnb
  ring : inRing s.own s.toSet s.dma
  flag : s.t ↔ 0 < s.unreported

theorem Inv.step {s : EthTx} (h : s.Inv) (op : EthTxOp) : (s.step op).Inv := by
  obtain ⟨hsum, hring, hflag⟩ := h
  cases op with
  | give =>
    rw [EthTx.step]
    split
    · rename_i hpc
      rw [if_pos hpc] at hsum
      obtain ⟨-, hring', howned⟩ := ring_give _ _ _ hring (by omega)
      exact ⟨by simp; omega, hring', hflag⟩
    · exact ⟨hsum, hring, hflag⟩
  | complete =>
    rw [EthTx.step]
    split
    · rename_i hown
      obtain ⟨hring', howned⟩ := ring_complete _ _ _ hring hown
      exact ⟨by dsimp only; omega, hring', by simp⟩
    · exact ⟨hsum, hring, hflag⟩
  | _ => grind [EthTx.step, Inv]

/-- No descriptor is counted twice, and none is filled that the DMA owns. But when all frames have
completed and all interrupts were served, all of them are free again if and only if every completion
was reported by an interrupt of its own. -/
theorem tx_conserved_iff (ops : List EthTxOp) :
    let s := ops.foldl step init
    s.value + owned s.own + s.unreported ≤ ethTxbufnb ∧
    (s.pc = .filling → s.own s.toSet = false) ∧
    (owned s.own = 0 ∧ s.pc ≠ .filling ∧ s.t = false → (s.value = ethTxbufnb ↔ s.merged = 0)) := by
  intro s
  obtain ⟨hsum, hring, hflag⟩ : s.Inv :=
    List.foldlRecOn ops step ⟨rfl, rfl, by decide⟩ fun s h op _ => h.step op
  refine ⟨by omega, fun hpc => ?_, fun ⟨howned, hpc, ht⟩ => ?_⟩
  · rw [if_pos hpc] at hsum
    exact (ring_give _ _ _ hring (by omega)).1
  · rw [if_neg hpc] at hsum
    simp only [ht, Bool.false_eq_true, false_iff] at hflag
    omega

/-- Two frames complete in front of one interrupt. -/
theorem tx_buffer_lost :
    let s := [.take, .give, .take, .give, .complete, .complete, .irq].foldl step init
    owned s.own = 0 ∧ s.pc = .idle ∧ s.t = false ∧ s.value = 1 := by
  exact ⟨rfl, rfl, rfl, rfl⟩

end EthTx

/-- `ETH_RXBUFNB` (`:3017`). -/
def ethRxbufnb : Nat := 4

/-- `RT_LWIP_ETHTHREAD_MBOX_SIZE` (`ethernetif.c:101`). -/
def rtLwipEththreadMboxSize : Nat := 48

/-- The frames from `DMARxDescToGet` on, without an error or not, the mails of `eth_rx_thread_mb`,
whether the thread is in its inner loop, and R. -/
structure EthRx where
  frames : List Bool
  mails : Nat
  draining : Bool
  r : Bool

/-- The steps. `dev->netif` is set or NULL, and `pbuf_alloc` returns a buffer or NULL. -/
inductive EthRxOp
  | arrive (good : Bool)
  | irq (netif : Bool)
  | linkchange
  | recv
  | rx (alloc : Bool)

namespace EthRx

def send (s : EthRx) : EthRx :=
  if s.mails < rtLwipEththreadMboxSize then { s with mails := s.mails + 1 } else s

/-- A frame arrives, `ETH_IRQHandler` (`:3046-3052`) with `eth_device_ready`
(`ethernetif.c:268-275`), `eth_device_linkchange`, or a step of the thread (`ethernetif.c:341-392`)
with `rt_stm32_eth_rx` (`:3284-3359`). -/
def step (s : EthRx) : EthRxOp → EthRx
  | .arrive good =>
    if s.frames.length < ethRxbufnb then { s with frames := s.frames ++ [good], r := true } else s
  | .irq netif => if s.r then { (if netif then s.send else s) with r := false } else s
  | .linkchange => s.send
  | .recv =>
    if s.draining = false ∧ 0 < s.mails then { s with mails := s.mails - 1, draining := true }
      else s
  | .rx alloc =>
    if s.draining then
      match s.frames with
      | [] => { s with draining := false }
      | good :: frames => { s with frames, draining := good && alloc }
    else s

/-- If the thread is blocked and no interrupt is pending, no frame is in the ring. -/
def Good (s : EthRx) : Prop := s.draining = false → s.mails = 0 → s.r = false → s.frames = []

/-- The step does not end the inner loop in front of a frame of which nothing else tells, and there
is a `netif` for the frames of which only the interrupt tells. -/
def Safe (s : EthRx) : EthRxOp → Prop
  | .irq netif => netif ∨ ¬ s.r ∨ s.draining ∨ 0 < s.mails ∨ s.frames = []
  | .rx alloc => ∀ good frames, s.draining → s.frames = good :: frames →
      good && alloc ∨ 0 < s.mails ∨ s.r ∨ frames = []
  | _ => True

theorem Good.step_iff {s : EthRx} (h : s.Good) (op : EthRxOp) : (s.step op).Good ↔ s.Safe op := by
  have hsize : 0 < rtLwipEththreadMboxSize := by decide
  cases op <;> grind [step, Good, Safe, send]

/-- No frame is stranded exactly in the runs in which `rt_stm32_eth_rx` does not return NULL for a
bad frame, or for want of memory, in front of another one, with no mail and no interrupt to come. -/
theorem rx_served_iff (ops : List EthRxOp) :
    Throughout step (fun s op => (s.step op).Good) ⟨[], 0, false, false⟩ ops ↔
      Throughout step Safe ⟨[], 0, false, false⟩ ops :=
  throughout_iff Good.step_iff (fun _ _ _ => rfl) ops

/-- A bad frame and a good one are covered by one interrupt. -/
theorem rx_stranded :
    ¬ ([.arrive false, .arrive true, .irq true, .recv, .rx true].foldl step
      ⟨[], 0, false, false⟩).Good := by
  intro h
  cases h rfl rfl rfl

end EthRx
end RtThread
