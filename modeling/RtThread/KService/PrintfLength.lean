import RtThread.KService.PrintfOutput

/-!
# The number that `rt_vsnprintf` returns

`rt_vsnprintf` returns `str - buf`, where `str` goes on for each byte whether it is stored or not.
The one place where the bytes depend on the room is the sign of a number: if it does not fit, it is
not taken off the field, and a padding behind the sign has one byte more. The sign that is the first
byte of the output always fits.
-/

namespace RtThread.Printf
open BitVec
open List

theorem length_digitLoop (digits : List Byte) (base free : ℕ) (num : BitVec 32) :
    (digitLoop digits base free num).length ≤ free := by
  induction free generalizing num with
  | zero => exact le_rfl
  | succ free ih =>
    rw [digitLoop]
    split
    · exact Nat.zero_le _
    · exact Nat.succ_le_succ (ih _)

theorem length_tmpDigits (large : Bool) (base : ℕ) (num : BitVec 32) :
    0 < (tmpDigits large base num).length ∧ (tmpDigits large base num).length ≤ 16 := by
  rw [tmpDigits]
  split
  · decide
  · rename_i hne
    refine ⟨?_, length_digitLoop _ _ _ _⟩
    rw [digitLoop, if_neg hne]
    exact Nat.succ_pos _

namespace NumberLayout
variable (l : NumberLayout)

/-- The padding behind the sign, if `size` is left of the field. -/
def padding (size : BitVec 32) : ℕ :=
  (if ¬ l.left then size.toInt.toNat else 0) +
    (if ¬ l.left then (if 0 < size.toInt then 0#32 else size) - 1#32 else size).toInt.toNat

theorem length_tail (size : BitVec 32) : (l.tail size).length = l.padding size +
      ((l.precision.toInt - (BitVec.ofNat 32 l.tmp.length).toInt).toNat + l.tmp.length) := by
  rw [tail, padding]
  split <;> simp <;> omega

theorem padding_eq {size : BitVec 32} (h : -2 ^ 31 < size.toInt) :
    l.padding size = size.toInt.toNat := by
  have hsub := toInt_sub_one h
  rw [padding]
  by_cases hleft : l.left = true
  · simp [hleft]
  · rw [if_pos hleft, if_pos hleft]
    split
    · have hneg : (0#32 - 1#32).toInt.toNat = 0 := by decide
      rw [hneg, Nat.add_zero]
    · rw [hsub]
      omega

theorem padding_min : l.padding 0x80000000#32 = if l.left then 0 else 2 ^ 31 - 1 := by
  rw [padding]
  cases l.left <;> decide

/-- The field is padded behind the sign: one of the flags `0` and `-` is given, and the digits do
not fill it. -/
def PadsBehindSign : Prop := l.sign.isSome ∧ (l.zeropad ∨ l.left) ∧ 0 < l.size.toInt

instance : Decidable l.PadsBehindSign := instDecidableAnd

theorem sizeAtSign_of_lead (hlead : ¬ (l.zeropad ∨ l.left)) :
    l.sizeAtSign.toInt ≤ 0 ∨ l.sizeAtSign.toInt = 2 ^ 31 - 1 := by
  rw [sizeAtSign, if_pos (by simpa using hlead)]
  split
  · exact .inl (by decide)
  · rename_i hfield
    have hlo := le_toInt l.field
    by_cases hmin : l.field.toInt = -2 ^ 31
    · rw [show l.field = 0x80000000#32 from eq_of_toInt_eq hmin]
      exact .inr (by decide)
    · rw [toInt_sub_one (by omega)]
      omega

theorem sizeAtSign_of_flag (hflag : l.zeropad ∨ l.left) : l.sizeAtSign = l.size ∧ l.lead = [] := by
  have hno : ¬ (¬ l.zeropad ∧ ¬ l.left) := by simpa using not_and_not_right.mpr hflag.resolve_left
  exact ⟨if_neg hno, if_neg hno⟩

/-- In an output of less than half the address space nothing overflows, so that the sign makes a
difference exactly where there is a padding behind it. -/
theorem padding_sizeAtSign (hsign : l.sign.isSome) (hdigits : 0 < l.tmp.length)
    (hlen : (l.rest true).length < 2 ^ 31) :
    l.padding l.sizeAtSign =
      l.padding (l.sizeAtSign - 1#32) + if l.PadsBehindSign then 1 else 0 := by
  obtain ⟨sign, hsome⟩ := Option.isSome_iff_exists.mp hsign
  have hshort : l.padding (l.sizeAtSign - 1#32) + 1 + l.tmp.length ≤ (l.rest true).length := by
    simp only [rest, hsome, if_true, length_cons, length_tail]
    omega
  have hlo := le_toInt l.sizeAtSign
  have hpads : l.PadsBehindSign ↔ 0 < l.sizeAtSign.toInt := by
    by_cases hflag : l.zeropad ∨ l.left
    · rw [(l.sizeAtSign_of_flag hflag).1]
      exact ⟨fun h => h.2.2, fun h => ⟨hsign, hflag, h⟩⟩
    · refine iff_of_false (fun h => hflag h.2.1) fun hpos => ?_
      have hmax := (l.sizeAtSign_of_lead hflag).resolve_left (by omega)
      have hsub := toInt_sub_one (k := l.sizeAtSign) (by omega)
      rw [l.padding_eq (by omega), hsub] at hshort
      omega
  rw [if_congr hpads rfl rfl]
  by_cases hmin : l.sizeAtSign.toInt = -2 ^ 31
  · rw [show l.sizeAtSign = 0x80000000#32 from eq_of_toInt_eq hmin] at hshort
    rw [l.padding_eq (by decide)] at hshort
    exact absurd (hshort.trans_lt hlen) (by simp)
  · have hsub := toInt_sub_one (k := l.sizeAtSign) (by omega)
    rw [l.padding_eq (by omega)]
    by_cases hlow : l.sizeAtSign.toInt = -2 ^ 31 + 1
    · have hprev : l.sizeAtSign - 1#32 = 0x80000000#32 :=
        eq_of_toInt_eq (by rw [hsub, hlow]; decide)
      rw [hprev, padding_min] at hshort ⊢
      split at hshort
      · rw [if_pos ‹_›, if_neg (by omega)]
        omega
      · omega
    · rw [l.padding_eq (by omega), hsub]
      split <;> omega

end NumberLayout

namespace Piece

/-- The piece is a number with a sign and a padding behind it. -/
def PadsBehindSign : Piece → Prop
  | .number num base width precision flags =>
    (numberLayout num base width precision flags).PadsBehindSign
  | .literal _ | .char _ _ _ | .string _ _ _ _ | .unknown _ => False

instance : DecidablePred PadsBehindSign
  | .number num base width precision flags =>
    inferInstanceAs (Decidable (numberLayout num base width precision flags).PadsBehindSign)
  | .literal _ | .char _ _ _ | .string _ _ _ _ | .unknown _ => .isFalse id

variable {p : Piece}

theorem length_rest (hlen : p.text.length < 2 ^ 31) (fits : Bool) : (p.rest fits).length =
    (p.rest true).length + if p.PadsBehindSign ∧ fits = false then 1 else 0 := by
  cases p with
  | number num base width precision flags =>
    obtain ⟨l, hl⟩ : ∃ l, l = numberLayout num base width precision flags := ⟨_, rfl⟩
    have htmp : 0 < l.tmp.length := hl ▸ (length_tmpDigits _ _ _).1
    rw [text_eq, length_append] at hlen
    simp only [rest, PadsBehindSign, ← hl] at hlen ⊢
    cases fits with
    | true => simp
    | false =>
      cases hsign : l.sign with
      | none =>
        have hno : ¬ l.PadsBehindSign := by simp [NumberLayout.PadsBehindSign, hsign]
        simp [NumberLayout.rest, hsign, hno]
      | some sign =>
        have hpad := l.padding_sizeAtSign (by simp [hsign]) htmp (by omega)
        simp only [NumberLayout.rest, hsign, length_cons, l.length_tail, Bool.false_eq_true,
          if_true, if_false, and_true, hpad]
        omega
  | literal c | char left width c | string left width precision s | unknown c =>
    simp [rest, PadsBehindSign]

theorem PadsBehindSign.lead_eq (h : p.PadsBehindSign) : p.lead = [] := by
  cases p with
  | number num base width precision flags => exact (NumberLayout.sizeAtSign_of_flag _ h.2.1).2
  | literal c | char left width c | string left width precision s | unknown c => exact h.elim

theorem PadsBehindSign.rest_ne_nil (h : p.PadsBehindSign) {fits : Bool} : p.rest fits ≠ [] := by
  cases p with
  | number num base width precision flags =>
    obtain ⟨sign, hsign⟩ := Option.isSome_iff_exists.mp h.1
    simp [rest, NumberLayout.rest, hsign]
  | literal c | char left width c | string left width precision s | unknown c => exact h.elim

end Piece

/-- The bytes of a round, as many as the text has, or one more behind a sign that does not fit. -/
theorem exists_emits {σ : Type} (S : Sink σ) (o : σ) {p : Piece} (hlen : p.text.length < 2 ^ 31) :
    ∃ cs, S.put o p = S.emits o cs ∧
      cs.length = p.text.length + if p.PadsBehindSign ∧ S.room o = false then 1 else 0 := by
  refine ⟨_, put_eq_emits S o p, ?_⟩
  rw [length_append, Piece.length_rest hlen, p.text_eq, length_append, Nat.add_assoc]
  by_cases hpads : p.PadsBehindSign
  · rw [hpads.lead_eq, Sink.emits_nil]
  · simp [hpads]

variable {fin : BitVec 32} {o : OutBuf} {ps : List Piece}

/-- A piece without text leaves the buffer alone. -/
theorem put_of_text_nil {p : Piece} (htext : p.text = []) : (bufSink fin).put o p = o := by
  have hnil := htext
  rw [p.text_eq, append_eq_nil_iff] at hnil
  have hno : ¬ p.PadsBehindSign := fun h => h.rest_ne_nil hnil.2
  obtain ⟨cs, hput, hlength⟩ := exists_emits (bufSink fin) o (p := p) (by simp [htext])
  rw [htext, if_neg (fun h => hno h.1)] at hlength
  rw [hput, eq_nil_of_length_eq_zero hlength, Sink.emits_nil]

theorem foldl_dropWhile (fin : BitVec 32) (o : OutBuf) (ps : List Piece) :
    (ps.dropWhile (·.text = [])).foldl (bufSink fin).put o = ps.foldl (bufSink fin).put o ∧
      (ps.dropWhile (·.text = [])).flatMap Piece.text = ps.flatMap Piece.text := by
  induction ps with
  | nil => exact ⟨rfl, rfl⟩
  | cons p ps ih =>
    by_cases htext : p.text = []
    · rw [dropWhile_cons_of_pos (by simpa using htext), foldl_cons, put_of_text_nil htext,
        flatMap_cons, htext]
      exact ih
    · rw [dropWhile_cons_of_neg (by simpa using htext)]
      exact ⟨rfl, rfl⟩

theorem foldl_put_str (hlen : (ps.flatMap Piece.text).length < 2 ^ 31)
    (hpads : ∀ p ∈ ps, ¬ p.PadsBehindSign) :
    (ps.foldl (bufSink fin).put o).str =
      o.str + BitVec.ofNat 32 (ps.flatMap Piece.text).length := by
  induction ps generalizing o with
  | nil => simp
  | cons p ps ih =>
    rw [flatMap_cons, length_append] at hlen ⊢
    obtain ⟨cs, hput, hlength⟩ := exists_emits (bufSink fin) o (p := p) (by omega)
    rw [if_neg fun h => hpads p mem_cons_self h.1, Nat.add_zero] at hlength
    rw [foldl_cons, ih (by omega) fun q hq => hpads q (mem_cons_of_mem p hq), hput,
      bufSink_emits_str, hlength, BitVec.add_assoc, BitVec.ofNat_add]

/-- Behind the end of a buffer at the address 0, each padding behind a sign has a byte more. -/
theorem foldl_put_full (hfin : fin = 0#32) (hstr : 0 < o.str.toNat)
    (hlen : o.str.toNat + 2 * (ps.flatMap Piece.text).length < 2 ^ 32) :
    (ps.foldl (bufSink fin).put o).str.toNat =
      o.str.toNat + (ps.flatMap Piece.text).length + ps.countP (·.PadsBehindSign) := by
  induction ps generalizing o with
  | nil => rfl
  | cons p ps ih =>
    rw [flatMap_cons, length_append] at hlen ⊢
    obtain ⟨cs, hput, hlength⟩ := exists_emits (bufSink fin) o (p := p) (by omega)
    have hroom : (bufSink fin).room o = false := by
      change decide (o.str ≤ fin) = false
      rw [decide_eq_false_iff_not, hfin, BitVec.le_def]
      exact Nat.not_le.mpr hstr
    have hshort : p.PadsBehindSign → 0 < p.text.length := by
      intro h
      have hne : p.text ≠ [] := by simp [p.text_eq, h.rest_ne_nil]
      exact length_pos_of_ne_nil hne
    rw [foldl_cons, countP_cons, hput]
    by_cases hpads : p.PadsBehindSign
    · have := hshort hpads
      rw [if_pos ⟨hpads, hroom⟩] at hlength
      have hnext := bufSink_emits_toNat fin o cs (by omega)
      rw [ih (by omega) (by omega), hnext, if_pos (by simpa using hpads)]
      omega
    · rw [if_neg fun h => hpads h.1] at hlength
      have hnext := bufSink_emits_toNat fin o cs (by omega)
      rw [ih (by omega) (by omega), hnext, if_neg (by simpa using hpads)]
      omega

/-- The first piece that has a text finds room for its sign. -/
theorem put_first_str {buf : BitVec 32} {mem : ByteMem} {p : Piece} (hfin : buf ≤ fin)
    (hlen : p.text.length < 2 ^ 31) : ((bufSink fin).put ⟨mem, buf⟩ p).str =
      buf + BitVec.ofNat 32 p.text.length := by
  obtain ⟨cs, hput, hlength⟩ := exists_emits (bufSink fin) ⟨mem, buf⟩ hlen
  have hroom : (bufSink fin).room ⟨mem, buf⟩ = true := decide_eq_true hfin
  rw [if_neg (by simp [hroom])] at hlength
  rw [hput, bufSink_emits_str, hlength]
  rfl

/-- Behind the first piece that has a text, no number is padded behind its sign. -/
def SignsFit (ps : List Piece) : Prop :=
  ∀ p ∈ (ps.dropWhile (·.text = [])).tail, ¬ p.PadsBehindSign

instance (ps : List Piece) : Decidable (SignsFit ps) := List.decidableBAll _ _

theorem foldl_put_of_signsFit {buf : BitVec 32} {mem : ByteMem} (hfin : buf ≤ fin)
    (hlen : (ps.flatMap Piece.text).length < 2 ^ 31) (hfit : SignsFit ps) :
    (ps.foldl (bufSink fin).put ⟨mem, buf⟩).str =
      buf + BitVec.ofNat 32 (ps.flatMap Piece.text).length := by
  obtain ⟨hrun, htext⟩ := foldl_dropWhile fin ⟨mem, buf⟩ ps
  rw [← hrun, ← htext]
  rw [← htext] at hlen
  rw [SignsFit] at hfit
  cases hps : ps.dropWhile (·.text = []) with
  | nil => simp
  | cons p rest =>
    rw [hps] at hlen hfit
    rw [tail_cons] at hfit
    rw [flatMap_cons, length_append] at hlen ⊢
    rw [foldl_cons, foldl_put_str (by omega) hfit, put_first_str hfin (by omega), BitVec.ofNat_add,
      BitVec.add_assoc]

theorem signsFit_of_foldl_put (mem : ByteMem) (hlen : (ps.flatMap Piece.text).length < 2 ^ 31)
    (hstr : (ps.foldl (bufSink 0#32).put ⟨mem, 0#32⟩).str.toNat = (ps.flatMap Piece.text).length) :
    SignsFit ps := by
  obtain ⟨hrun, htext⟩ := foldl_dropWhile 0#32 ⟨mem, 0#32⟩ ps
  have hhead := head?_dropWhile_not (fun p : Piece => decide (p.text = [])) ps
  rw [← hrun, ← htext] at hstr
  rw [← htext] at hlen
  rw [SignsFit]
  cases hps : ps.dropWhile (·.text = []) with
  | nil => simp
  | cons p rest =>
    rw [hps] at hstr hlen hhead
    rw [flatMap_cons, length_append] at hlen hstr
    have hpos : 0 < p.text.length := length_pos_of_ne_nil (by simpa using hhead)
    have hfirst : ((bufSink 0#32).put ⟨mem, 0#32⟩ p).str.toNat = p.text.length := by
      rw [put_first_str (BitVec.le_refl _) (by omega), BitVec.zero_add, BitVec.toNat_ofNat]
      omega
    have hfull := @foldl_put_full _ ((bufSink 0#32).put ⟨mem, 0#32⟩ p) rest rfl (by omega)
      (by omega)
    have hnone : rest.countP (·.PadsBehindSign) = 0 := by
      rw [foldl_cons] at hstr
      omega
    simpa [List.countP_eq_zero] using hnone

/-- The returned number is the length of the complete output, whatever the size of the buffer, if
and only if the output is shorter than half the address space and a sign with a padding behind it
stands only at its beginning. -/
theorem rtVsnprintf_returns_length (fmt : CStr) (args : List PrintArg) (text : List Byte)
    (htext : printText fmt args = some text) :
    (∀ (mem : ByteMem) (buf size : BitVec 32), 1 ≤ size.toNat → size.toNat < 2 ^ 31 →
      buf.toNat + size.toNat ≤ 2 ^ 32 →
      ∃ r mem', rtVsnprintf mem buf size fmt args = some (r, mem') ∧ r.toInt = text.length) ↔
    text.length < 2 ^ 31 ∧
      ∀ ps, pieces fmt.bytes.length fmt.bytes args = some ps → SignsFit ps := by
  rw [printText_eq] at htext
  obtain ⟨ps, hps, rfl⟩ := Option.map_eq_some_iff.mp htext
  constructor
  · intro hreturns
    obtain ⟨r, mem', hret, hr⟩ :=
      hreturns (fun _ => 0) 0#32 1#32 (by decide) (by decide) (by decide)
    have hlen : (ps.flatMap Piece.text).length < 2 ^ 31 := by
      have := toInt_lt (x := r)
      omega
    refine ⟨hlen, fun ps' hps' => ?_⟩
    obtain rfl := Option.some.inj (hps.symm.trans hps')
    obtain ⟨fin, hfin, heq⟩ := @rtVsnprintf_eq (fun _ => 0) 0#32 1#32 fmt args (by decide)
      (by decide)
    obtain rfl : fin = 0#32 := eq_of_toNat_eq (Nat.succ.inj hfin)
    rw [hret, hps] at heq
    obtain ⟨rfl, -⟩ := Prod.mk.inj (Option.some.inj heq)
    refine signsFit_of_foldl_put (fun _ => 0) hlen ?_
    rw [BitVec.sub_zero, toInt_eq_toNat_cond] at hr
    split at hr <;> omega
  · rintro ⟨hlen, hfit⟩ mem buf size hsize - hfits
    obtain ⟨fin, hfin, heq⟩ := rtVsnprintf_eq mem fmt args hsize hfits
    have hstr := @foldl_put_of_signsFit fin ps buf mem (by rw [BitVec.le_def]; omega) hlen
      (hfit ps hps)
    rw [hps] at heq
    refine ⟨_, _, heq, ?_⟩
    rw [hstr, BitVec.add_comm, BitVec.add_sub_cancel]
    exact toInt_ofNat_of_lt hlen

/-- `"%s%04d|%+5d"`: a padding stands behind the first sign, if the string is empty. -/
theorem rtVsnprintf_returns_length_ten :
    ∃ r mem', rtVsnprintf (fun _ => 0xff) 0x20000000 1
        ⟨"%s%04d|%+5d".toList.map Char.byte, by decide⟩
        [.str (some ⟨[], by decide⟩), .int (-1), .int 12] = some (r, mem') ∧ r.toInt = 10 := by
  have htext : printText ⟨"%s%04d|%+5d".toList.map Char.byte, by decide⟩
      [.str (some ⟨[], by decide⟩), .int (-1), .int 12] =
        some ("-001|  +12".toList.map Char.byte) := by decide +kernel
  have hfit : SignsFit ((pieces 11 ("%s%04d|%+5d".toList.map Char.byte)
      [.str (some ⟨[], by decide⟩), .int (-1), .int 12]).getD []) := by decide +kernel
  refine (rtVsnprintf_returns_length _ _ _ htext).mpr ⟨by decide, fun ps hps => ?_⟩ _ _ 1
    (by decide) (by decide) (by decide)
  rwa [show pieces 11 _ _ = some ps from hps] at hfit

/-- `"a%03d"` prints the four bytes `a-01`; into one byte, it is said to have five. -/
theorem rtVsnprintf_returns_more :
    (rtVsnprintf (fun _ => 0) 0x20000000 100 ⟨"a%03d".toList.map Char.byte, by decide⟩
      [.int (-1)]).map Prod.fst = some 4#32 ∧
    (rtVsnprintf (fun _ => 0) 0x20000000 1 ⟨"a%03d".toList.map Char.byte, by decide⟩
      [.int (-1)]).map Prod.fst = some 5#32 := by
  constructor <;> decide +kernel

end RtThread.Printf
