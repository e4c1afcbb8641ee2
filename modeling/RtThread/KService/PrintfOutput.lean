import RtThread.KService.Printf

/-!
# What `rt_vsnprintf` leaves in the buffer

The bytes of a round do not depend on the buffer, except that behind a sign that does not fit
`print_number` writes one padding byte too many. By then nothing is stored any more, so the buffer
holds the beginning of the complete text all the same, as long as `str` does not run past the last
address; but the returned number depends on the size of the buffer.
-/

namespace RtThread.Printf
open Nat
open Option
open Function
open List

def pieces : ℕ → List Byte → List PrintArg → Option (List Piece)
  | _, [], _ => some []
  | 0, _ :: _, _ => none
  | rounds + 1, c :: fmt, args =>
    if c ≠ '%'.byte then (pieces rounds fmt args).map (.literal c :: ·)
    else do
      let (piece, fmt, args) ← directive fmt args
      (pieces rounds fmt args).map (piece :: ·)

variable {σ : Type}

theorem format_eq_pieces (S : Sink σ) (n : ℕ) (fmt : List Byte) (args : List PrintArg)
    (o : σ) : S.format n fmt args o = (pieces n fmt args).map (·.foldl S.put o) := by
  induction n generalizing fmt args o with
  | zero =>
    cases fmt with
    | nil => rfl
    | cons c fmt => rfl
  | succ n ih =>
    cases fmt with
    | nil => rfl
    | cons c fmt =>
      rw [Sink.format, pieces]
      split
      · rw [ih, Option.map_map]
        rfl
      · cases hd : directive fmt args with
        | none => rfl
        | some next =>
          obtain ⟨piece, fmt', args'⟩ := next
          change S.format n fmt' args' (S.put o piece) = ((pieces n fmt' args').map _).map _
          rw [ih, Option.map_map]
          rfl

/-- What `print_number` has found out when it writes. -/
structure NumberLayout where
  zeropad : Bool
  left : Bool
  sign : Option Byte
  /-- what is left of the field -/
  size : BitVec 32
  precision : BitVec 32
  tmp : List Byte

namespace NumberLayout
variable (l : NumberLayout)

/-- What is left of the field for the spaces in front of the sign. -/
def field : BitVec 32 :=
  if l.sign.isSome ∧ 0 < l.size.toInt then l.size - 1#32 else l.size

/-- The spaces in front of the sign. -/
def lead : List Byte :=
  if ¬ l.zeropad ∧ ¬ l.left then replicate l.field.toInt.toNat ' '.byte else []

/-- `size` when it comes to the sign. -/
def sizeAtSign : BitVec 32 :=
  if ¬ l.zeropad ∧ ¬ l.left then (if 0 < l.field.toInt then 0#32 else l.field) - 1#32 else l.size

/-- The bytes behind the sign, if `size` is left of the field. -/
def tail (size : BitVec 32) : List Byte :=
  (if ¬ l.left then
      replicate size.toInt.toNat (if l.zeropad then '0'.byte else ' '.byte) else []) ++
    (replicate (l.precision.toInt - (BitVec.ofNat 32 l.tmp.length).toInt).toNat '0'.byte ++
    (l.tmp.reverse ++
    replicate
      (if ¬ l.left then (if 0 < size.toInt then 0#32 else size) - 1#32 else size).toInt.toNat
      ' '.byte))

/-- The sign and the bytes behind it; `fits` says if there is room for the sign. -/
def rest (fits : Bool) : List Byte :=
  match l.sign with
  | none => l.tail l.sizeAtSign
  | some sign => sign :: l.tail (if fits then l.sizeAtSign - 1#32 else l.sizeAtSign)

end NumberLayout

/-- The number is written in three parts: what stands in front of the sign, the sign, and what
stands behind it. Only the last part depends on whether there is room for the sign. -/
theorem writeNumber_eq (S : Sink σ) (o : σ) (l : NumberLayout) :
    writeNumber S o l.zeropad l.left l.sign l.size l.precision l.tmp =
      S.emits (S.emits o l.lead) (l.rest (S.room (S.emits o l.lead))) := by
  obtain ⟨zeropad, left, sign, size, precision, tmp⟩ := l
  simp only [writeNumber, NumberLayout.rest, NumberLayout.lead, NumberLayout.tail,
    NumberLayout.sizeAtSign, NumberLayout.field, Sink.fillDown, BitVec.toInt_zero, Int.sub_zero]
  cases left <;> cases zeropad <;> cases sign <;>
    simp only [Sink.emits_append, Sink.emits_nil, Sink.emits_cons, Bool.false_eq_true,
      not_false_eq_true, not_true, and_true, and_false, if_true, if_false, isSome_none,
      isSome_some, false_and, true_and, and_self]

/-- The layout of a number, as `print_number` prepares it. -/
def numberLayout (num : BitVec 32) (base : ℕ) (s precision : BitVec 32) (type : PrintFlags) :
    NumberLayout :=
  let tmp := tmpDigits type.large base (getSign type num).2
  let i := BitVec.ofNat 32 tmp.length
  let precision := if precision.toInt < i.toInt then i else precision
  ⟨if type.left then false else type.zeropad, type.left, (getSign type num).1, s - precision,
    precision, tmp⟩

theorem printNumber_eq (S : Sink σ) (o : σ) (num : BitVec 32) (base : ℕ)
    (s precision : BitVec 32) (type : PrintFlags) :
    let l := numberLayout num base s precision type
    printNumber S o num base s precision type =
      writeNumber S o l.zeropad l.left l.sign l.size l.precision l.tmp := rfl

def Piece.text (p : Piece) : List Byte := textSink.put [] p

namespace Piece

/-- The bytes in front of the sign, for a number. -/
def lead : Piece → List Byte
  | .number num base s precision type => (numberLayout num base s precision type).lead
  | .literal _ | .char _ _ _ | .string _ _ _ _ | .unknown _ => []

/-- The other bytes; `fits` says if there is room for the sign. -/
def rest (fits : Bool) : Piece → List Byte
  | .number num base s precision type => (numberLayout num base s precision type).rest fits
  | .literal c => [c]
  | .char left width c =>
    if left then c :: replicate (width - 1#32).toInt.toNat ' '.byte
    else
      replicate (width - 1#32).toInt.toNat ' '.byte ++ c ::
        replicate ((if 0 < (width - 1#32).toInt then 0#32 else width - 1#32) - 1#32).toInt.toNat
          ' '.byte
  | .string left width precision s =>
    let len := BitVec.ofNat 32 s.length
    let len := if 0 < precision.toInt ∧ precision.toInt < len.toInt then precision else len
    let s := s.take len.toInt.toNat
    if left then s ++ replicate (width.toInt - len.toInt).toNat ' '.byte
    else
      replicate (width.toInt - len.toInt).toNat ' '.byte ++ (s ++ replicate
        (((if len.toInt < width.toInt then len else width) - 1#32).toInt - len.toInt).toNat
          ' '.byte)
  | .unknown c => '%'.byte :: c.toList

end Piece

theorem emits_eq_append {S : Sink (List Byte)} (h : ∀ text c, S.emit text c = text ++ [c])
    (text cs : List Byte) : S.emits text cs = text ++ cs := by
  induction cs generalizing text with
  | nil => rw [Sink.emits_nil, append_nil]
  | cons c cs ih => rw [Sink.emits_cons, ih, h, append_assoc, singleton_append]

@[simp] theorem textSink_emits (text cs : List Byte) : textSink.emits text cs = text ++ cs :=
  emits_eq_append (fun _ _ => rfl) text cs

/-- What a round writes depends on the sink only by the room for a sign. -/
theorem put_eq_emits (S : Sink σ) (o : σ) (p : Piece) :
    S.put o p = S.emits o (p.lead ++ p.rest (S.room (S.emits o p.lead))) := by
  rw [Sink.emits_append]
  cases p with
  | literal c => rfl
  | char left width c =>
    cases left <;> simp [Piece.lead, Piece.rest, Sink.put, Sink.fillPre, Sink.emits_append]
  | string left width precision str =>
    cases left <;> simp [Piece.lead, Piece.rest, Sink.put, Sink.fillDown, Sink.emits_append]
  | number num base width precision flags => rw [Sink.put, printNumber_eq, writeNumber_eq]; rfl
  | unknown c => rfl

theorem Piece.text_eq (p : Piece) : p.text = p.lead ++ p.rest true := by
  rw [Piece.text, put_eq_emits, textSink_emits]
  rfl

theorem textSink_put (text : List Byte) (p : Piece) : textSink.put text p = text ++ p.text := by
  rw [put_eq_emits, textSink_emits, p.text_eq]
  rfl

theorem foldl_textSink (text : List Byte) (ps : List Piece) :
    ps.foldl textSink.put text = text ++ ps.flatMap Piece.text := by
  induction ps generalizing text with
  | nil => simp
  | cons p ps ih => rw [foldl_cons, textSink_put, ih, flatMap_cons, append_assoc]

theorem printText_eq (fmt : CStr) (args : List PrintArg) :
    printText fmt args = (pieces fmt.bytes.length fmt.bytes args).map (·.flatMap Piece.text) := by
  rw [printText, format_eq_pieces]
  congr 1
  funext ps
  rw [foldl_textSink, nil_append]

/-- Only `str`, counted from the buffer of `n` bytes on. -/
def countSink (n : ℕ) : Sink ℕ where
  emit k _ := k + 1
  room k := decide (k < n)

theorem countSink_emits (n k : ℕ) (cs : List Byte) : (countSink n).emits k cs = k + cs.length := by
  induction cs generalizing k with
  | nil => rfl
  | cons c cs ih =>
    rw [Sink.emits_cons, ih, length_cons, ← Nat.add_assoc, Nat.add_right_comm]
    rfl

theorem countSink_put (n k : ℕ) (p : Piece) : (countSink n).put k p =
    k + (p.lead ++ p.rest (decide (k + p.lead.length < n))).length := by
  rw [put_eq_emits, countSink_emits, countSink_emits]
  rfl

/-- The buffer of `n` bytes at `b` after `text` was printed: it holds the beginning of the text, and
`str` has gone `k` bytes, as many as the text has if that fits. -/
structure Printed (mem : ByteMem) (b n k : ℕ) (text : List Byte) (o : OutBuf) : Prop where
  mem : o.mem = mem.store b (text.take n)
  str : o.str.toNat = b + k
  inside : text.length < n → k = text.length
  outside : n ≤ text.length → n ≤ k

theorem toNat_add_one {str : BitVec 32} (h : str.toNat + 1 < 2 ^ 32) :
    (str + 1#32).toNat = str.toNat + 1 := by
  rw [BitVec.toNat_add_of_lt (by simpa using h)]
  rfl

theorem bufSink_emits_str (fin : BitVec 32) (o : OutBuf) (cs : List Byte) :
    ((bufSink fin).emits o cs).str = o.str + BitVec.ofNat 32 cs.length := by
  induction cs generalizing o with
  | nil => simp
  | cons c cs ih =>
    rw [Sink.emits_cons, ih]
    change o.str + 1#32 + _ = _
    rw [BitVec.add_assoc, ← BitVec.ofNat_add, Nat.add_comm, length_cons]

theorem bufSink_room {b n k : ℕ} {fin : BitVec 32} {o : OutBuf} (hfin : fin.toNat + 1 = b + n)
    (hstr : o.str.toNat = b + k) : (bufSink fin).room o = decide (k < n) := by
  change decide (o.str ≤ fin) = _
  rw [decide_eq_decide, BitVec.le_def]
  omega

theorem bufSink_emits_toNat (fin : BitVec 32) (o : OutBuf) (cs : List Byte)
    (hspace : o.str.toNat + cs.length < 2 ^ 32) :
    ((bufSink fin).emits o cs).str.toNat = o.str.toNat + cs.length := by
  rw [bufSink_emits_str, BitVec.toNat_add, BitVec.toNat_ofNat]
  omega

theorem bufSink_emits_outside {fin : BitVec 32} (o : OutBuf) (cs : List Byte)
    (hout : fin.toNat < o.str.toNat) (hlt : o.str.toNat + cs.length < 2 ^ 32) :
    ((bufSink fin).emits o cs).mem = o.mem := by
  induction cs generalizing o with
  | nil => rfl
  | cons c cs ih =>
    rw [length_cons] at hlt
    have hstr : ((bufSink fin).emit o c).str.toNat = o.str.toNat + 1 := toNat_add_one (by omega)
    rw [Sink.emits_cons, ih ((bufSink fin).emit o c) (by omega) (by omega)]
    exact if_neg (by rw [BitVec.le_def]; omega)

namespace Printed
variable {mem : ByteMem} {b n k : ℕ} {fin : BitVec 32} {text : List Byte} {o : OutBuf}

section
variable (h : Printed mem b n k text o) (hfin : fin.toNat + 1 = b + n)
include h hfin

theorem room_iff : o.str ≤ fin ↔ text.length < n := by
  have hstr := h.str
  have hin := h.inside
  have hout := h.outside
  rw [BitVec.le_def]
  omega

theorem emit (hspace : b + k + 1 < 2 ^ 32) (c : Byte) :
    Printed mem b n (k + 1) (text ++ [c]) ((bufSink fin).emit o c) := by
  have hstr := h.str
  have hin := h.inside
  have hout := h.outside
  refine ⟨?_, ?_, fun hlt => ?_, fun hle => ?_⟩
  · by_cases hroom : text.length < n
    · have hmem := h.mem
      rw [take_of_length_le (by omega)] at hmem
      rw [take_of_length_le (by simp; omega), ByteMem.store_append_singleton, ← hmem, ← hin hroom,
        ← hstr]
      exact if_pos ((h.room_iff hfin).mpr hroom)
    · rw [take_append_of_le_length (by omega), ← h.mem]
      exact if_neg fun hle => hroom ((h.room_iff hfin).mp hle)
  · exact (toNat_add_one (by omega)).trans (by omega)
  · rw [length_append, length_singleton] at hlt ⊢
    omega
  · rw [length_append, length_singleton] at hle
    omega

theorem emits (cs : List Byte) (hspace : b + k + cs.length < 2 ^ 32) :
    Printed mem b n (k + cs.length) (text ++ cs) ((bufSink fin).emits o cs) := by
  induction cs generalizing text o k with
  | nil => rwa [Sink.emits_nil, append_nil]
  | cons c cs ih =>
    rw [length_cons] at hspace
    have hnext := ih (h.emit hfin (by omega) c) (by omega)
    rwa [append_assoc, singleton_append, Nat.add_assoc, Nat.add_comm 1] at hnext

/-- Behind the end of the buffer it does not matter what is printed. -/
theorem emits_outside (cs : List Byte) {cs' : List Byte} (hfull : n ≤ text.length)
    (hspace : b + k + cs'.length < 2 ^ 32) :
    Printed mem b n (k + cs'.length) (text ++ cs) ((bufSink fin).emits o cs') := by
  have hstr := h.str
  have hout := h.outside hfull
  refine ⟨?_, ?_, fun hin => ?_, fun _ => by omega⟩
  · rw [bufSink_emits_outside o cs' (by omega) (by omega), h.mem, take_append_of_le_length hfull]
  · rw [bufSink_emits_toNat fin o cs' (by omega)]
    omega
  · rw [length_append] at hin
    omega

/-- If the sign of a number does not fit, nothing behind it is stored. -/
theorem put (p : Piece) (hspace : b + (countSink n).put k p < 2 ^ 32) :
    Printed mem b n ((countSink n).put k p) (text ++ p.text) ((bufSink fin).put o p) := by
  rw [countSink_put] at hspace ⊢
  rw [length_append] at hspace ⊢
  have hlead := h.emits hfin p.lead (by omega)
  rw [put_eq_emits, bufSink_room hfin hlead.str, Sink.emits_append, p.text_eq, ← append_assoc,
    ← Nat.add_assoc]
  by_cases hroom : k + p.lead.length < n
  · rw [decide_eq_true hroom] at hspace ⊢
    exact hlead.emits hfin _ (by omega)
  · have hin := hlead.inside
    exact hlead.emits_outside hfin _ (by omega) (by omega)

theorem last (hn : 1 ≤ n) :
    (if o.str ≤ fin then o.str.toNat else fin.toNat) = b + min text.length (n - 1) := by
  have hstr := h.str
  by_cases hin : text.length < n
  · have := h.inside hin
    rw [if_pos ((h.room_iff hfin).mpr hin)]
    omega
  · rw [if_neg fun hle => hin ((h.room_iff hfin).mp hle)]
    omega

end
end Printed

theorem printed_nil (mem : ByteMem) (buf : BitVec 32) {n : ℕ} (hn : 0 < n) :
    Printed mem buf.toNat n 0 [] ⟨mem, buf⟩ :=
  ⟨by simp, rfl, fun _ => rfl, fun h => absurd h (by simp; omega)⟩

/-- Two memories are printed to, and `str` has passed the last address: the byte at the address 0
does not depend on the memory any more, or is the next one to be written. -/
structure Wrapped (o o' : OutBuf) : Prop where
  str : o.str = o'.str
  zero : o.mem 0 = o'.mem 0 ∨ o.str = 0#32

namespace Wrapped
variable {o o' : OutBuf} (fin : BitVec 32)

theorem update_zero (h : Wrapped o o') (c : Byte) :
    update o.mem o.str.toNat c 0 = update o'.mem o'.str.toNat c 0 := by
  rw [update_apply, update_apply, ← h.str]
  split
  · rfl
  · rename_i hne
    exact h.zero.resolve_right fun hzero => hne (by simp [hzero])

theorem emit (h : Wrapped o o') (c : Byte) :
    Wrapped ((bufSink fin).emit o c) ((bufSink fin).emit o' c) := by
  refine ⟨congrArg (· + 1#32) h.str, .inl ?_⟩
  change (if o.str ≤ fin then _ else o.mem) 0 = (if o'.str ≤ fin then _ else o'.mem) 0
  rw [← h.str]
  by_cases hle : o.str ≤ fin
  · rw [if_pos hle, if_pos hle]
    exact h.str ▸ h.update_zero c
  · rw [if_neg hle, if_neg hle]
    exact h.zero.resolve_right fun hzero => hle (by rw [hzero, BitVec.le_def]; exact zero_le _)

theorem emits (h : Wrapped o o') (cs : List Byte) :
    Wrapped ((bufSink fin).emits o cs) ((bufSink fin).emits o' cs) := by
  induction cs generalizing o o' with
  | nil => exact h
  | cons c cs ih => exact ih (h.emit fin c)

/-- The zero byte behind the output. -/
theorem last (h : Wrapped o o') :
    update o.mem (if o.str ≤ fin then o.str.toNat else fin.toNat) 0 0 =
      update o'.mem (if o'.str ≤ fin then o'.str.toNat else fin.toNat) 0 0 := by
  rw [← h.str]
  split
  · exact h.str ▸ h.update_zero 0
  · rename_i hfull
    have hsame := h.zero.resolve_right fun hzero => hfull (by simp [hzero, BitVec.le_def])
    rw [update_apply, update_apply, hsame]

end Wrapped

theorem rtVsnprintf_eq (mem : ByteMem) {buf size : BitVec 32} (fmt : CStr) (args : List PrintArg)
    (hsize : 0 < size.toNat) (hfits : buf.toNat + size.toNat ≤ 2 ^ 32) :
    ∃ fin : BitVec 32, fin.toNat + 1 = buf.toNat + size.toNat ∧ rtVsnprintf mem buf size fmt args =
        (pieces fmt.bytes.length fmt.bytes args).map fun ps =>
          let o := ps.foldl (bufSink fin).put ⟨mem, buf⟩
          (o.str - buf, update o.mem (if o.str ≤ fin then o.str.toNat else fin.toNat) 0) := by
  have hfin : (buf + size - 1#32).toNat + 1 = buf.toNat + size.toNat := by
    rw [BitVec.toNat_sub, BitVec.toNat_add, BitVec.toNat_ofNat]
    omega
  refine ⟨buf + size - 1#32, hfin, ?_⟩
  have hge : ¬ buf + size - 1#32 < buf := by
    rw [BitVec.lt_def]
    omega
  rw [rtVsnprintf]
  simp only [if_neg hge, format_eq_pieces]
  cases pieces fmt.bytes.length fmt.bytes args with
  | none => rfl
  | some ps => rfl

end RtThread.Printf
