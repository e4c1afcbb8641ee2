import Mathlib.Data.List.TakeWhile
import RtThread.KService.PrintfOutput

/-!
# `rt_snprintf` into a list of bytes

The formatter over a buffer that is given as a list, for callers that go on with the string.
-/

namespace RtThread.Printf
open List

/-- The string that a list of bytes starts with. -/
def CStr.ofBytes (s : List Byte) : CStr :=
  ⟨Buffer.cstr s, fun h => by simpa using mem_takeWhile_imp h⟩

/-- The bytes that `str` has moved over, of which the first `limit` are in the buffer. -/
def cutSink (limit : ℕ) : Sink (List Byte) where
  emit text c := text ++ [c]
  room text := decide (text.length < limit)

/-- `rt_snprintf` (`kservice.c:1008-1019`): the buffer, if it holds what is written. -/
def rtSnprintf (buf : List Byte) (size : ℕ) (fmt : CStr) (args : List PrintArg) :
    Option (List Byte) := do
  -- if `size` is 0, `end` is the last address there is
  let limit := if size = 0 then 2 ^ 32 else size
  let out ← (cutSink limit).format fmt.bytes.length fmt.bytes args []
  let n := min out.length (limit - 1)
  if n < buf.length then some (out.take n ++ 0 :: buf.drop (n + 1)) else none

theorem CStr.bytes_ofBytes {s : List Byte} (hs : 0 ∉ s) : (ofBytes s).bytes = s :=
  takeWhile_eq_self_iff.mpr fun c hc => by simpa using fun h : c = 0 => hs (h ▸ hc)

variable (limit : ℕ) (text : List Byte)

theorem cutSink_put (p : Piece) : ∃ fits, (cutSink limit).put text p =
    text ++ (p.lead ++ p.rest fits) := by
  rw [put_eq_emits]
  exact ⟨_, emits_eq_append (fun _ _ => rfl) text _⟩

/-- `%s` without a field width prints the string. -/
theorem cutSink_put_string {s : List Byte} (hs : s.length < 2 ^ 31) :
    (cutSink limit).put text (.string false (-1) (-1) s) = text ++ s := by
  have hlen := toInt_ofNat_of_lt hs
  have hfront : (-1 - (s.length : ℤ)).toNat = 0 := by omega
  have hback : (-2 - (s.length : ℤ)).toNat = 0 := by omega
  have hneg : ¬ ((s.length : ℤ) < -1) := by omega
  obtain ⟨fits, hput⟩ := cutSink_put limit text (.string false (-1) (-1) s)
  rw [hput]
  simp [Piece.lead, Piece.rest, hlen, hfront, hback, hneg]

/-- `"%s/%s"`. -/
def joinFormat : CStr := ⟨"%s/%s".toList.map Char.byte, by decide⟩

theorem rtSnprintf_join {buf a b : List Byte} (ha : 0 ∉ a) (hb : 0 ∉ b) (hlen : a.length < 2 ^ 31)
    (hlen' : b.length < 2 ^ 31) (hbuf : buf.length = a.length + b.length + 2) :
    rtSnprintf buf (a.length + b.length + 2) joinFormat
        [.str (some (.ofBytes a)), .str (some (.ofBytes b))] =
          some (a ++ '/'.byte :: b ++ [0]) := by
  have hps : pieces joinFormat.bytes.length joinFormat.bytes
      [.str (some (.ofBytes a)), .str (some (.ofBytes b))] =
        some [.string false (-1) (-1) (CStr.ofBytes a).bytes, .literal '/'.byte,
          .string false (-1) (-1) (CStr.ofBytes b).bytes] := rfl
  have hlit : ∀ limit text, (cutSink limit).put text (.literal '/'.byte) = text ++ ['/'.byte] :=
    fun _ _ => rfl
  rw [CStr.bytes_ofBytes ha, CStr.bytes_ofBytes hb] at hps
  have hout : (a ++ ['/'.byte] ++ b).length = a.length + b.length + 1 := by
    simp
    omega
  rw [rtSnprintf, if_neg (by omega), format_eq_pieces, hps]
  simp only [Option.map_some, foldl_cons, foldl_nil, cutSink_put_string _ _ hlen,
    cutSink_put_string _ _ hlen', hlit, nil_append, Option.bind_eq_bind, Option.bind_some, hout]
  rw [Nat.min_eq_left (by omega), if_pos (by omega), take_of_length_le (by omega),
    drop_of_length_le (by omega)]
  simp

end RtThread.Printf
