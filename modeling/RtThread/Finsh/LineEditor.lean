import RtThread.Finsh.Shell

/-!
# The line editor

What the shell does with keys, against an editor that has a text, a cursor and the last lines. The
shell keeps the text in front of zero bytes in a buffer of `FINSH_CMD_SIZE` bytes, and follows the
editor as long as there is room. When the buffer is full, the text is discarded but its bytes stay
in it.
-/

namespace RtThread
open Buffer
open List

inductive Key
  | char (c : Byte)
  /-- `0x7f` or `0x08` -/
  | backspace (del : Bool)
  | left
  | right
  | up
  | down
  | newline
  deriving DecidableEq

/-- The text in front of the cursor and behind it, the last lines, and the one of them that is
shown. -/
structure Editor where
  before : List Byte
  after : List Byte
  history : List (List Byte)
  current : Nat

namespace Editor
variable (e : Editor)

def text : List Byte := e.before ++ e.after

def cursor : Nat := e.before.length

def showHistory (i : Nat) : Editor := ⟨e.history.getD i [], [], e.history, i⟩

/-- The lines that are kept when there is a new one. -/
def push (line : List Byte) : List (List Byte) :=
  if e.history.length ≥ finshHistoryLines then e.history.drop 1 ++ [line] else e.history ++ [line]

/-- What a key does. A text that reaches `FINSH_CMD_SIZE` characters is discarded. -/
def press : Key → Editor
  | .char c =>
    if e.text.length + 1 ≥ finshCmdSize then { e with before := [], after := [] }
    else { e with before := e.before ++ [c] }
  | .backspace _ => { e with before := e.before.dropLast }
  | .left =>
    match e.before.getLast? with
    | none => e
    | some c => { e with before := e.before.dropLast, after := c :: e.after }
  | .right =>
    match e.after with
    | [] => e
    | c :: after => { e with before := e.before ++ [c], after }
  | .up => if e.current = 0 then e else e.showHistory (e.current - 1)
  | .down =>
    if e.history = [] then e else e.showHistory (min (e.current + 1) (e.history.length - 1))
  | .newline =>
    let history := if e.text = [] then e.history else e.push e.text
    ⟨[], [], history, history.length⟩

section Press
variable {before after : List Byte} {c : Byte} {history : List (List Byte)} {shown : Nat}

@[simp] theorem press_left_append :
    press ⟨before ++ [c], after, history, shown⟩ .left = ⟨before, c :: after, history, shown⟩ := by
  simp [press]

@[simp] theorem press_right_cons :
    press ⟨before, c :: after, history, shown⟩ .right = ⟨before ++ [c], after, history, shown⟩ :=
      rfl

@[simp] theorem press_backspace_append (del : Bool) :
    press ⟨before ++ [c], after, history, shown⟩ (.backspace del) =
      ⟨before, after, history, shown⟩ := by
  simp [press]

theorem press_char (h : (before ++ after).length + 1 < finshCmdSize) :
    press ⟨before, after, history, shown⟩ (.char c) = ⟨before ++ [c], after, history, shown⟩ :=
  if_neg (Nat.not_le.mpr h)

end Press
end Editor

def editorOf (tr : List (Key × Option (List Byte))) : Editor :=
  tr.foldl (fun e step => e.press step.1) ⟨[], [], [], 0⟩

def Key.bytes : Key → List Byte
  | .char c => [c]
  | .backspace del => [if del then 0x7f else 0x08]
  | .up => [0x1b, 0x5b, 0x41]
  | .down => [0x1b, 0x5b, 0x42]
  | .right => [0x1b, 0x5b, 0x43]
  | .left => [0x1b, 0x5b, 0x44]
  | .newline => ['\n'.byte]

/-- The bytes that are typed: all but NUL, backspaces, tab, newline, CR and escape. -/
def Plain (c : Byte) : Prop := c ∉ [0, 0x08, '\t'.byte, '\n'.byte, '\r'.byte, 0x1b, 0x7f]

instance (c : Byte) : Decidable (Plain c) := instDecidableNot

namespace Shell

variable (complete : List Byte → List Byte)

/-- What the shell does with a key, byte by byte. -/
def press (s : Shell) (key : Key) : Option (List Byte) × Shell :=
  key.bytes.foldl (fun x ch => x.2.readChar complete ch none) (none, s)

/-- The characters that are typed are plain. -/
def Enabled (_ : Shell) : Key → Prop
  | .char c => Plain c
  | _ => True

def machine : Machine Shell Key (Option (List Byte)) where
  Enabled := Enabled
  apply := press complete

/-- There is room for one more character and a zero byte, for the keys that add one. -/
def Fits (s : Shell) : Key → Prop
  | .char _ | .newline => s.linePosition + 1 < finshCmdSize
  | _ => True

instance (complete : List Byte → List Byte) (s : Shell) (key : Key) :
    Decidable ((machine complete).Enabled s key) :=
  match key with
  | .char c => inferInstanceAs (Decidable (Plain c))
  | .backspace _ | .left | .right | .up | .down | .newline => .isTrue trivial

instance (s : Shell) (key : Key) : Decidable (s.Fits key) :=
  match key with
  | .char _ | .newline => inferInstanceAs (Decidable (_ < _))
  | .backspace _ | .left | .right | .up | .down => .isTrue trivial

def start : Shell where
  stat := .waitNormal
  currentHistory := 0
  historyCount := 0
  cmdHistory := replicate finshHistoryLines (replicate finshCmdSize 0)
  line := replicate finshCmdSize 0
  linePosition := 0
  lineCurpos := 0

end Shell

/-- A line in a buffer of `FINSH_CMD_SIZE` bytes. -/
def padded (text : List Byte) : List Byte := text ++ replicate (finshCmdSize - text.length) 0

section Padded
variable {text s s' : List Byte} {c : Byte} {n : Nat}

theorem append_replicate_eq_padded (h : text.length + n = finshCmdSize) :
    text ++ replicate n 0 = padded text := by
  have hn : n = finshCmdSize - text.length := by omega
  rw [hn, padded]

theorem padded_eq_append_cons (h : text.length < finshCmdSize) :
    padded text = text ++ 0 :: replicate (finshCmdSize - text.length - 1) 0 := by
  have hn : finshCmdSize - text.length = finshCmdSize - text.length - 1 + 1 := by omega
  rw [padded, hn, replicate_succ]
  rfl

theorem cstr_padded (h : text.length < finshCmdSize) (hzero : 0 ∉ text) :
    cstr (padded text) = text := by
  have htake : (padded text).take text.length = text := by rw [padded, take_left]
  have hget : (padded text)[text.length]? = some 0 := by
    rw [padded_eq_append_cons h]
    simp
  have hcstr := cstr_of_take (by rwa [htake]) hget
  rwa [htake] at hcstr

theorem padded_set (h : text.length < finshCmdSize) :
    (padded text).set text.length c = padded (text ++ [c]) := by
  rw [padded_eq_append_cons h]
  have hset : ∀ tail : List Byte, (text ++ 0 :: tail).set text.length c = text ++ [c] ++ tail := by
    intro tail
    simp
  rw [hset]
  apply append_replicate_eq_padded
  simp
  omega

@[simp] theorem rtMemmove_zero (buf : List Byte) (dest src : Nat) :
    rtMemmove buf dest src 0 = buf :=
  ite_self buf

theorem rtMemmove_up (s s' tail : List Byte) (hs' : s' ≠ []) :
    rtMemmove (s ++ s' ++ c :: tail) (s.length + 1) s.length s'.length =
      s ++ (s' ++ [c]).head (by simp) :: s' ++ tail := by
  unfold rtMemmove
  split
  · exact copyBackward_up s s' tail c
  · rename_i hover
    have hpos := length_pos_iff.mpr hs'
    have hone : s'.length = 1 := by omega
    rw [← copyBackward_up, hone]
    rfl

theorem padded_insert (h : (s ++ s').length < finshCmdSize) (hs' : s' ≠ []) :
    (rtMemmove (padded (s ++ s')) (s.length + 1) s.length s'.length).set s.length c =
      padded (s ++ [c] ++ s') := by
  have hset :
    ∀ d (tail : List Byte), (s ++ d :: s' ++ tail).set s.length c = s ++ [c] ++ s' ++ tail := by
    intro d tail
    simp
  rw [padded_eq_append_cons h, rtMemmove_up s s' _ hs', hset]
  apply append_replicate_eq_padded
  simp at h ⊢
  omega

theorem padded_delete (h : (s ++ c :: s').length < finshCmdSize) :
    (rtMemmove (padded (s ++ c :: s')) s.length (s.length + 1) s'.length).set (s ++ s').length 0 =
      padded (s ++ s') := by
  have hset : ∀ d (tail : List Byte), (s ++ s' ++ d :: tail).set (s ++ s').length 0 =
      s ++ s' ++ 0 :: tail := by
    intro d tail
    rw [set_append_right _ _ (Nat.le_refl _), Nat.sub_self, set_cons_zero]
  rw [padded, rtMemmove, if_neg (by omega), copyForward_down, hset, ← replicate_succ]
  apply append_replicate_eq_padded
  simp at h ⊢
  omega

end Padded

/-- The buffer holds the text in front of zero bytes, and there is a cursor in the text. -/
structure LineOk (line : List Byte) (position curpos : Nat) (before after : List Byte) : Prop where
  line : line = padded (before ++ after)
  position : position = (before ++ after).length
  curpos : curpos = before.length
  fits : (before ++ after).length < finshCmdSize
  zero : 0 ∉ before ++ after

/-- The first lines of the history are those of the editor. -/
structure HistoryOk (cmdHistory : List (List Byte)) (count current : Nat)
    (history : List (List Byte)) (shown : Nat) : Prop where
  count : count = history.length
  current : current = shown
  current_le : shown ≤ history.length
  size : cmdHistory.length = finshHistoryLines
  count_le : history.length ≤ finshHistoryLines
  lines : cmdHistory.take history.length = history.map padded
  line_ok : ∀ line ∈ history, line.length < finshCmdSize ∧ 0 ∉ line

/-- The line and the history of the shell are those of the editor. -/
structure Follows (s : Shell) (e : Editor) : Prop where
  stat : s.stat = .waitNormal
  line : LineOk s.line s.linePosition s.lineCurpos e.before e.after
  history : HistoryOk s.cmdHistory s.historyCount s.currentHistory e.history e.current

namespace Follows
variable {s : Shell} {e : Editor}

theorem start : Follows .start ⟨[], [], [], 0⟩ where
  stat := rfl
  line := ⟨rfl, rfl, rfl, by decide, not_mem_nil⟩
  history := ⟨rfl, rfl, Nat.le_refl 0, rfl, Nat.zero_le _, rfl, by simp⟩

section
variable (h : Follows s e)
include h

theorem leftKey : Follows s.leftKey (e.press .left) := by
  obtain ⟨before, after, history, shown⟩ := e
  have ⟨hstat, ⟨hline, hposition, hcurpos, hfits, hzero⟩, hhistory⟩ := h
  rw [Shell.leftKey, hcurpos]
  rcases eq_nil_or_concat before with rfl | ⟨before, c, rfl⟩
  · exact h
  · rw [concat_eq_append] at *
    have htext : before ++ [c] ++ after = before ++ c :: after := by simp
    rw [if_pos (by simp), Editor.press_left_append]
    rw [htext] at hline hposition hfits hzero
    exact ⟨hstat, ⟨hline, hposition, by simp, hfits, hzero⟩, hhistory⟩

theorem rightKey : Follows s.rightKey (e.press .right) := by
  obtain ⟨before, after, history, shown⟩ := e
  have ⟨hstat, ⟨hline, hposition, hcurpos, hfits, hzero⟩, hhistory⟩ := h
  rw [Shell.rightKey, hcurpos, hposition]
  cases after with
  | nil =>
    rw [if_neg (by simp)]
    exact h
  | cons c after =>
    have htext : before ++ c :: after = before ++ [c] ++ after := by simp
    rw [if_pos (by simp), Editor.press_right_cons]
    rw [htext] at hline hposition hfits hzero ⊢
    exact ⟨hstat, ⟨hline, rfl, by simp, hfits, hzero⟩, hhistory⟩

theorem backspaceKey (del : Bool) : Follows s.backspaceKey (e.press (.backspace del)) := by
  obtain ⟨before, after, history, shown⟩ := e
  have ⟨hstat, ⟨hline, hposition, hcurpos, hfits, hzero⟩, hhistory⟩ := h
  rw [Shell.backspaceKey, hcurpos, hposition, hline]
  rcases eq_nil_or_concat before with rfl | ⟨before, c, rfl⟩
  · exact h
  · rw [concat_eq_append] at *
    have htext : before ++ [c] ++ after = before ++ c :: after := by simp
    have hlen : (before ++ c :: after).length - 1 = (before ++ after).length := by simp
    have hcur : (before ++ [c]).length - 1 = before.length := by simp
    have hmove : (before ++ after).length - before.length = after.length := by simp
    rw [htext] at hfits hzero ⊢
    rw [if_neg (by simp), Editor.press_backspace_append]
    simp only [hlen, hcur, hmove]
    -- at the end of the text nothing is moved
    have hsame : (if (before ++ after).length > before.length then
        rtMemmove (padded (before ++ c :: after)) before.length (before.length + 1) after.length
        else padded (before ++ c :: after)) =
        rtMemmove (padded (before ++ c :: after)) before.length (before.length + 1)
          after.length := by
      split
      · rfl
      · rename_i hlast
        have hnil : after.length = 0 := by simpa using hlast
        rw [hnil, rtMemmove_zero]
    rw [hsame, padded_delete hfits]
    refine ⟨hstat, ⟨rfl, rfl, rfl, ?_, ?_⟩, hhistory⟩
    · simp at hfits ⊢
      omega
    · intro h0
      simp at h0 hzero
      tauto

theorem typed {c : Byte} (hc : c ≠ 0) (hroom : s.linePosition + 1 < finshCmdSize) :
    Follows (s.typed c) (e.press (.char c)) := by
  obtain ⟨before, after, history, shown⟩ := e
  have ⟨hstat, ⟨hline, hposition, hcurpos, hfits, hzero⟩, hhistory⟩ := h
  rw [hposition] at hroom
  have hmove : (before ++ after).length - before.length = after.length := by simp
  rw [Shell.typed, hcurpos, hposition, hline, Editor.press_char hroom]
  simp only [if_neg (Nat.not_le.mpr hfits), if_neg (Nat.not_le.mpr hroom), hmove]
  refine ⟨hstat, ⟨?_, ?_, by simp, ?_, ?_⟩, hhistory⟩
  · split
    · rename_i hmiddle
      have hafter : after ≠ [] := by
        rintro rfl
        simp at hmiddle
      rw [padded_insert hfits hafter]
    · rename_i hlast
      have hnil : after = [] := by
        apply length_eq_zero_iff.mp
        simpa using hlast
      subst hnil
      rw [padded_set hfits]
      simp
  · simp
    omega
  · simp at hroom ⊢
    omega
  · intro h0
    simp at h0 hzero
    tauto

theorem showHistory {i : Nat} (hi : i < e.history.length) :
    Follows { s with currentHistory := i }.showHistory (e.showHistory i) := by
  obtain ⟨hlen, hzero⟩ := h.history.line_ok e.history[i] (getElem_mem hi)
  have hget : e.history.getD i [] = e.history[i] := by simp [hi]
  have hline : s.cmdHistory.getD i [] = padded e.history[i] := by
    have htake := congrArg (·[i]?) h.history.lines
    simp only [getElem?_take, if_pos hi, getElem?_map] at htake
    rw [getD_eq_getElem?_getD, htake, getElem?_eq_getElem hi]
    rfl
  rw [Shell.showHistory, Editor.showHistory, hget]
  simp only [hline, cstr_padded hlen hzero]
  refine ⟨h.stat, ⟨?_, ?_, rfl, ?_, ?_⟩, { h.history with
    current := rfl
    current_le := Nat.le_of_lt hi }⟩
  · rw [append_nil]
  · rw [append_nil]
  · rwa [append_nil]
  · rwa [append_nil]

theorem upKey : Follows s.upKey (e.press .up) := by
  have hle := h.history.current_le
  rw [Shell.upKey, Editor.press, h.history.current]
  split
  · rename_i hpos
    rw [if_neg (Nat.ne_of_gt hpos)]
    exact h.showHistory (by omega)
  · rename_i hzero
    have hshown : e.current = 0 := by omega
    rw [if_pos hshown]
    exact { h with history := { h.history with current := hshown.symm } }

theorem downKey : Follows s.downKey (e.press .down) := by
  have hcount := h.history.count
  rw [Shell.downKey, Editor.press, h.history.current]
  by_cases hempty : e.history = []
  · have hlen : e.history.length = 0 := length_eq_zero_iff.mpr hempty
    rw [if_pos hempty, if_neg (by omega), if_neg (by omega)]
    exact h
  · have hpos := length_pos_iff.mpr hempty
    rw [if_neg hempty]
    split
    · have hmin : min (e.current + 1) (e.history.length - 1) = e.current + 1 := by omega
      rw [hmin]
      apply h.showHistory
      omega
    · have hmin : min (e.current + 1) (e.history.length - 1) = s.historyCount - 1 := by omega
      rw [if_pos (by omega), hmin]
      apply h.showHistory
      omega

theorem historyLine_eq : s.historyLine = padded e.text := by
  have hline : s.line = padded e.text := h.line.line
  have hposition : s.linePosition = e.text.length := h.line.position
  have htake : s.line.take s.linePosition = e.text := by
    rw [hline, hposition, padded, take_left]
  rw [Shell.historyLine, htake, hposition, padded]

theorem push_lines :
    HistoryOk (if s.historyCount ≥ finshHistoryLines then s.cmdHistory.drop 1 ++ [padded e.text]
        else s.cmdHistory.set s.historyCount (padded e.text))
      (if s.historyCount ≥ finshHistoryLines then finshHistoryLines else s.historyCount + 1)
      (if s.historyCount ≥ finshHistoryLines then finshHistoryLines else s.historyCount + 1)
      (e.push e.text) (e.push e.text).length := by
  obtain ⟨hcount, -, -, hsize, hle, hlines, hok⟩ := h.history
  have hnew : e.text.length < finshCmdSize ∧ 0 ∉ e.text := ⟨h.line.fits, h.line.zero⟩
  rw [Editor.push, hcount]
  split
  · rename_i hfull
    have hlen : e.history.length = finshHistoryLines := Nat.le_antisymm hle hfull
    have hall : s.cmdHistory = e.history.map padded := by
      rwa [hlen, ← hsize, take_length] at hlines
    have hlen' : (e.history.drop 1 ++ [e.text]).length = finshHistoryLines := by
      simp [hlen, finshHistoryLines]
    refine ⟨hlen'.symm, hlen'.symm, Nat.le_refl _, ?_, Nat.le_of_eq hlen', ?_, fun line hline => ?_⟩
    · simp [hsize, finshHistoryLines]
    · rw [hall, take_of_length_le (by simp)]
      simp
    · rcases mem_append.mp hline with hline | hline
      · exact hok line (mem_of_mem_drop hline)
      · rwa [mem_singleton.mp hline]
  · rename_i hroom
    have hlt : e.history.length < s.cmdHistory.length := hsize ▸ Nat.lt_of_not_le hroom
    have hlen : (e.history ++ [e.text]).length = e.history.length + 1 := by simp
    refine ⟨hlen.symm, hlen.symm, Nat.le_refl _, ?_, ?_, ?_, fun line hline => ?_⟩
    · rw [length_set, hsize]
    · omega
    · rw [hlen, take_succ_set hlt, hlines, map_append]
      rfl
    · rcases mem_append.mp hline with hline | hline
      · exact hok line hline
      · rwa [mem_singleton.mp hline]

theorem pushHistory : s.pushHistory.line = s.line ∧ s.pushHistory.linePosition = s.linePosition ∧
    s.pushHistory.stat = s.stat ∧
    HistoryOk s.pushHistory.cmdHistory s.pushHistory.historyCount s.pushHistory.currentHistory
      (e.press .newline).history (e.press .newline).current := by
  have hposition : s.linePosition = e.text.length := h.line.position
  have hpush := h.push_lines
  rw [Shell.pushHistory, h.historyLine_eq]
  by_cases htext : e.text = []
  · have hhistory : (e.press .newline).history = e.history := if_pos htext
    have hcurrent : (e.press .newline).current = e.history.length := congrArg length hhistory
    rw [hhistory, hcurrent, if_neg (by simp [hposition, htext])]
    exact ⟨rfl, rfl, rfl,
      { h.history with current := h.history.count, current_le := Nat.le_refl _ }⟩
  · have hhistory : (e.press .newline).history = e.push e.text := if_neg htext
    have hcurrent : (e.press .newline).current = (e.push e.text).length :=
      congrArg length hhistory
    rw [hhistory, hcurrent, if_pos (by simpa [hposition] using htext)]
    by_cases hfull : s.historyCount ≥ finshHistoryLines
    · simp only [if_pos hfull] at hpush ⊢
      exact ⟨trivial, trivial, trivial, hpush⟩
    · simp only [if_neg hfull] at hpush ⊢
      exact ⟨trivial, trivial, trivial, hpush⟩

theorem endOfLine : Follows s.endOfLine.2 (e.press .newline) := by
  obtain ⟨-, -, hstat, hhistory⟩ := h.pushHistory
  have hempty : LineOk (replicate finshCmdSize 0) 0 0 [] [] :=
    ⟨rfl, rfl, rfl, by decide, not_mem_nil⟩
  exact ⟨hstat.trans h.stat, hempty, hhistory⟩

theorem endOfLine_run (hroom : s.linePosition + 1 < finshCmdSize) (htext : e.text ≠ []) :
    ∃ line, s.endOfLine.1 = some line ∧ 0 ∈ line ∧ cstr line = e.text ++ [';'.byte] := by
  obtain ⟨hline, hposition, -, -⟩ := h.pushHistory
  have hlen : s.linePosition = e.text.length := h.line.position
  have hpos : s.linePosition ≠ 0 := by
    rw [hlen]
    exact Nat.ne_of_gt (length_pos_iff.mpr htext)
  have hset : s.pushHistory.line.set s.pushHistory.linePosition ';'.byte =
      padded (e.text ++ [';'.byte]) := by
    have hpadded : s.line = padded e.text := h.line.line
    rw [hline, hposition, hpadded, hlen]
    exact padded_set h.line.fits
  have hfits : (e.text ++ [';'.byte]).length < finshCmdSize := by
    rw [length_append, length_singleton, ← hlen]
    exact hroom
  refine ⟨padded (e.text ++ [';'.byte]), ?_, ?_, ?_⟩
  · rw [Shell.endOfLine]
    simp only [hset]
    rw [if_pos (hposition ▸ hpos)]
  · rw [padded_eq_append_cons hfits]
    simp
  · apply cstr_padded hfits
    intro h0
    rcases mem_append.mp h0 with h0 | h0
    · exact h.line.zero h0
    · simp at h0
      exact absurd h0 (by decide)

end

theorem press_eq (hstat : s.stat = .waitNormal) (complete : List Byte → List Byte) {key : Key}
    (hplain : s.Enabled key) :
    s.press complete key = match key with
      | .char c => (none, s.typed c)
      | .backspace _ => (none, s.backspaceKey)
      | .left => (none, s.leftKey)
      | .right => (none, s.rightKey)
      | .up => (none, s.upKey)
      | .down => (none, s.downKey)
      | .newline => s.endOfLine := by
  obtain ⟨stat, current, count, history, line, position, curpos⟩ := s
  cases hstat
  cases key with
  | char c =>
    have hc : Plain c := hplain
    simp only [Plain, mem_cons, not_mem_nil, or_false, not_or] at hc
    obtain ⟨-, hbs, htab, hnl, hcr, hesc, hdel⟩ := hc
    simp only [Shell.press, Key.bytes, foldl_cons, foldl_nil, Shell.readChar,
      Shell.normalChar, hbs, htab, hnl, hcr, hesc, hdel, or_self, if_false]
  | backspace del => cases del <;> rfl
  | left | right | up | down | newline => rfl

theorem press (h : Follows s e) (complete : List Byte → List Byte) {key : Key}
    (hplain : s.Enabled key) (hroom : s.Fits key) :
    Follows (s.press complete key).2 (e.press key) := by
  rw [press_eq h.stat complete hplain]
  cases key with
  | char c =>
    have hc : Plain c := hplain
    have hzero : c ≠ 0 := by
      rintro rfl
      exact hc (mem_cons_self ..)
    exact h.typed hzero hroom
  | backspace del => exact h.backspaceKey del
  | left => exact h.leftKey
  | right => exact h.rightKey
  | up => exact h.upKey
  | down => exact h.downKey
  | newline => exact h.endOfLine

end Follows

namespace Shell
variable {complete : List Byte → List Byte} {s : Shell} {tr : List (Key × Option (List Byte))}

def Step (complete : List Byte → List Byte) :
    Shell → Key × Option (List Byte) → Shell → Prop := (machine complete).Step

def StepIf (complete : List Byte → List Byte) (P : Shell → Key → Prop) :
    Shell → Key × Option (List Byte) → Shell → Prop := (machine complete).StepIf P

theorem follows_of_run (hrun : Run (StepIf complete Fits) start tr s) :
    Follows s (editorOf tr) := by
  refine hrun.invariant .start fun tr s key s' h hstep => ?_
  obtain ⟨⟨henabled, happly⟩, hroom⟩ := hstep
  have hnext := h.press complete henabled hroom
  have happly' : s.press complete key.1 = (key.2, s') := happly
  rw [happly'] at hnext
  rw [editorOf, foldl_append]
  exact hnext

/-- As long as there is room, the shell has the text and the cursor of the editor, with zero bytes
behind the text; and at the end of a line, it runs the text with a `;`. -/
theorem follows_editor_of_safe_run (hrun : Run (StepIf complete Fits) start tr s) :
    s.lineCurpos ≤ s.linePosition ∧ s.linePosition ≤ finshCmdSize - 1 ∧
    s.lineCurpos = (editorOf tr).cursor ∧ s.line.take s.linePosition = (editorOf tr).text ∧
    s.line.drop s.linePosition = replicate (finshCmdSize - s.linePosition) 0 ∧
    ∀ result s', StepIf complete Fits s (.newline, result) s' → (editorOf tr).text ≠ [] →
      ∃ line, result = some line ∧ 0 ∈ line ∧ cstr line = (editorOf tr).text ++ [';'.byte] := by
  have h := follows_of_run hrun
  have hline : s.line = padded (editorOf tr).text := h.line.line
  have hposition : s.linePosition = (editorOf tr).text.length := h.line.position
  have hfits : (editorOf tr).text.length < finshCmdSize := h.line.fits
  refine ⟨?_, ?_, h.line.curpos, ?_, ?_, ?_⟩
  · rw [h.line.curpos, hposition, Editor.text, length_append]
    exact Nat.le_add_right _ _
  · omega
  · rw [hline, hposition, padded, take_left]
  · rw [hline, hposition, padded, drop_left]
  · intro result s' hstep htext
    obtain ⟨⟨-, happly⟩, hroom⟩ := hstep
    have happly' : s.press complete .newline = (result, s') := happly
    have hplain : s.Enabled .newline := trivial
    rw [Follows.press_eq h.stat complete hplain] at happly'
    have hrun := h.endOfLine_run hroom htext
    simp only at happly'
    rwa [happly'] at hrun

/-- `a`, `c`, the left key and `b` are the text `abc`. -/
theorem follows_editor_of_safe_run_abc :
    ∃ tr s, Run (StepIf id Fits) start tr s ∧ s.linePosition = 3 ∧ s.lineCurpos = 2 ∧
      s.line.take s.linePosition = ['a', 'b', 'c'].map Char.byte := by
  have hrun := (machine id).run_exec Fits start
    [.char 'a'.byte, .char 'c'.byte, .left, .char 'b'.byte]
  obtain ⟨-, -, -, htext, -⟩ := follows_editor_of_safe_run hrun
  refine ⟨_, _, hrun, by decide +kernel, by decide +kernel, htext.trans ?_⟩
  decide +kernel

/-- Eighty characters are discarded, but stay in the buffer: the next line, which is `b`, is run
without a zero byte. So is a line of 79 characters. -/
theorem full_line_is_not_cleared :
    (∃ tr s line s', Run (Step id) start tr s ∧ (editorOf tr).text = ['b'.byte] ∧
      s.line.take 3 = ['b', 'a', 'a'].map Char.byte ∧ Step id s (.newline, some line) s' ∧
      0 ∉ line) ∧
    ∃ tr s line s', Run (Step id) start tr s ∧ (editorOf tr).text = replicate 79 'a'.byte ∧
      Step id s (.newline, some line) s' ∧ 0 ∉ line := by
  have hstep : ∀ {s : Shell} {line}, (s.press id .newline).1 = some line →
      Step id s (.newline, some line) (s.press id .newline).2 :=
    fun hline => ⟨trivial, Prod.ext hline rfl⟩
  have hrun := (machine id).run_steps start (replicate 80 (.char 'a'.byte) ++ [.char 'b'.byte])
  have hrun' := (machine id).run_steps start (replicate 79 (.char 'a'.byte))
  exact ⟨⟨_, _, 'b'.byte :: ';'.byte :: replicate 78 'a'.byte, _, hrun, by decide +kernel,
      by decide +kernel, hstep (by decide +kernel), by decide +kernel⟩,
    ⟨_, _, replicate 79 'a'.byte ++ [';'.byte], _, hrun', by decide +kernel,
      hstep (by decide +kernel), by decide +kernel⟩⟩

/-- The lines that a run has executed, without their `;`. -/
def executed (tr : List (Key × Option (List Byte))) : List (List Byte) :=
  tr.filterMap fun step => step.2.map fun line => (cstr line).dropLast

/-- The last lines, as many as `cmd_history` has room for. -/
def recent (lines : List (List Byte)) : List (List Byte) :=
  lines.drop (lines.length - finshHistoryLines)

theorem push_recent {e : Editor} {lines : List (List Byte)} (h : e.history = recent lines)
    (line : List Byte) : e.push line = recent (lines ++ [line]) := by
  have hlen : (lines ++ [line]).length = lines.length + 1 := by simp
  rw [Editor.push, h, recent, recent, hlen, length_drop, finshHistoryLines]
  split
  · rw [drop_append_of_le_length (by omega), drop_drop]
    congr 2
    omega
  · rw [Nat.sub_eq_zero_of_le (by omega), Nat.sub_eq_zero_of_le (by omega)]
    rfl

theorem history_press {e : Editor} {key : Key} (h : key ≠ .newline) :
    (e.press key).history = e.history := by
  cases key with
  | newline => exact absurd rfl h
  | backspace => rfl
  | left | right | char | up | down =>
    rw [Editor.press]
    split <;> rfl

theorem executed_press {e : Editor} {key : Key} {result : Option (List Byte)} {s' : Shell}
    {lines : List (List Byte)} (h : Follows s e) (hplain : s.Enabled key) (hroom : s.Fits key)
    (hpress : s.press complete key = (result, s')) (hlines : e.history = recent lines) :
    (e.press key).history = recent (lines ++ executed [(key, result)]) := by
  obtain rfl : (s.press complete key).1 = result := congrArg Prod.fst hpress
  rw [Follows.press_eq h.stat complete hplain]
  by_cases hkey : key = .newline
  · subst hkey
    by_cases htext : e.text = []
    · have hzero : s.pushHistory.linePosition = 0 := by
        rw [h.pushHistory.2.1, h.line.position]
        exact congrArg length htext
      have hnone : s.endOfLine.1 = none := if_neg (not_not.mpr hzero)
      simp [executed, hnone, Editor.press, htext, hlines]
    · obtain ⟨line, hline, -, hcstr⟩ := h.endOfLine_run hroom htext
      simp [executed, hline, hcstr, Editor.press, htext, push_recent hlines]
  · rw [history_press hkey, hlines]
    cases key <;> first | exact absurd rfl hkey | simp [executed]

theorem history_of_run (hrun : Run (StepIf complete Fits) start tr s) :
    (editorOf tr).history = recent (executed tr) := by
  refine (hrun.invariant (I := fun tr s => Follows s (editorOf tr) ∧
    (editorOf tr).history = recent (executed tr)) ⟨.start, rfl⟩ ?_).2
  rintro tr s ⟨key, result⟩ s' ⟨h, hlines⟩ ⟨⟨henabled, happly⟩, hroom⟩
  have happly' : s.press complete key = (result, s') := happly
  have hnext := h.press complete henabled hroom
  rw [happly'] at hnext
  rw [editorOf, foldl_append, executed, filterMap_append]
  exact ⟨hnext, executed_press h henabled hroom happly' hlines⟩

/-- The history of the shell are the lines that it has executed last, the oldest first. -/
theorem history_of_safe_run (hrun : Run (StepIf complete Fits) start tr s) :
    s.historyCount = min (executed tr).length finshHistoryLines ∧
      s.cmdHistory.take s.historyCount = (recent (executed tr)).map padded := by
  have h := (follows_of_run hrun).history
  have hlines := h.lines
  rw [← h.count, history_of_run hrun] at hlines
  refine ⟨?_, hlines⟩
  rw [h.count, history_of_run hrun, recent, length_drop]
  omega

/-- `a` and `b` are executed, and the line between them is empty. -/
theorem history_of_safe_run_two : ∃ tr s, Run (StepIf id Fits) start tr s ∧
    s.cmdHistory.take s.historyCount = [padded ['a'.byte], padded ['b'.byte]] := by
  have hrun := (machine id).run_exec Fits start
    [.char 'a'.byte, .newline, .newline, .char 'b'.byte, .newline]
  exact ⟨_, _, hrun, (history_of_safe_run hrun).2.trans (by decide +kernel)⟩

end Shell
end RtThread
