import RtThread.Lib.CString
import RtThread.Lib.Run

/-!
# The shell

How `finsh_thread_entry` (`shell.c`) edits a line. The characters that are echoed are left out. A
line that is run is a result of the character that ends it.
-/

namespace RtThread
open Buffer

/-- `FINSH_CMD_SIZE` (`shell.h:54`). -/
def finshCmdSize : Nat := 80

/-- `FINSH_HISTORY_LINES` (`shell.h:67`). -/
def finshHistoryLines : Nat := 5

/-- `rt_memmove` (`kservice.c:294-313`) within a buffer. -/
def rtMemmove (buf : List Byte) (dest src n : Nat) : List Byte :=
  if src < dest ∧ dest < src + n then copyBackward buf dest src n else copyForward buf dest src n

/-- `enum input_stat` (`shell.h:85-90`). -/
inductive InputStat
  | waitNormal
  | waitSpecKey
  | waitFuncKey
  deriving DecidableEq

/-- The fields of `struct finsh_shell` (`shell.h:91-117`) that are about the line and the history.
-/
structure Shell where
  stat : InputStat
  currentHistory : Nat
  historyCount : Nat
  cmdHistory : List (List Byte)
  line : List Byte
  linePosition : Nat
  lineCurpos : Nat
  deriving DecidableEq

namespace Shell
variable (s : Shell)

/-- The history command is copied to the line (`shell.c:465-468` and `488-491`). -/
def showHistory : Shell :=
  let line := s.cmdHistory.getD s.currentHistory []
  { s with line, linePosition := (cstr line).length, lineCurpos := (cstr line).length }

/-- The up key (`:452-471`). -/
def upKey : Shell :=
  if s.currentHistory > 0 then { s with currentHistory := s.currentHistory - 1 }.showHistory
  else { s with currentHistory := 0 }

/-- The down key (`:472-495`). The comparison is one of `int`s. -/
def downKey : Shell :=
  if (s.currentHistory : Int) < s.historyCount - 1 then
    { s with currentHistory := s.currentHistory + 1 }.showHistory
  else if s.historyCount ≠ 0 then { s with currentHistory := s.historyCount - 1 }.showHistory
  else s

/-- The left key (`:496-505`). -/
def leftKey : Shell := if s.lineCurpos ≠ 0 then { s with lineCurpos := s.lineCurpos - 1 } else s

/-- The right key (`:506-515`). -/
def rightKey : Shell :=
  if s.lineCurpos < s.linePosition then { s with lineCurpos := s.lineCurpos + 1 } else s

/-- The backspace key (`:546-577`). -/
def backspaceKey : Shell :=
  if s.lineCurpos = 0 then s
  else
    let s := { s with linePosition := s.linePosition - 1, lineCurpos := s.lineCurpos - 1 }
    let line :=
      if s.linePosition > s.lineCurpos then
        rtMemmove s.line s.lineCurpos (s.lineCurpos + 1) (s.linePosition - s.lineCurpos)
      else s.line
    { s with line := line.set s.linePosition 0 }

/-- A line of the history: zeros, and then the bytes of the line (`:365-366`). -/
def historyLine : List Byte :=
  s.line.take s.linePosition ++ List.replicate (finshCmdSize - s.linePosition) 0

/-- `shell_push_history` (`:350-380`). -/
def pushHistory : Shell :=
  let s :=
    if s.linePosition ≠ 0 then
      if s.historyCount ≥ finshHistoryLines then
        { s with
          cmdHistory := s.cmdHistory.drop 1 ++ [s.historyLine]
          historyCount := finshHistoryLines }
      else
        { s with
          cmdHistory := s.cmdHistory.set s.historyCount s.historyLine
          historyCount := s.historyCount + 1 }
    else s
  { s with currentHistory := s.historyCount }

/-- The end of a line (`:580-611`), and the line that is run. -/
def endOfLine : Option (List Byte) × Shell :=
  let s := s.pushHistory
  let line := s.line.set s.linePosition ';'.byte
  (if s.linePosition ≠ 0 then some line else none,
    { s with line := List.replicate finshCmdSize 0, linePosition := 0, lineCurpos := 0 })

/-- A normal character (`:613-650`). -/
def typed (ch : Byte) : Shell :=
  let position := if s.linePosition ≥ finshCmdSize then 0 else s.linePosition
  let line :=
    if s.lineCurpos < position then
      (rtMemmove s.line (s.lineCurpos + 1) s.lineCurpos (position - s.lineCurpos)).set
        s.lineCurpos ch
    else s.line.set position ch
  if position + 1 ≥ finshCmdSize then { s with line, linePosition := 0, lineCurpos := 0 }
  else { s with line, linePosition := position + 1, lineCurpos := s.lineCurpos + 1 }

variable (complete : List Byte → List Byte)

/-- A character that is not part of a key (`:519-650`). `next` is the character that can be
read from the device behind a CR, and `complete` what `shell_auto_complete` makes of the line. -/
def normalChar (ch : Byte) (next : Option Byte) : Option (List Byte) × Shell :=
  if ch = '\t'.byte then
    let line := complete s.line
    (none, { s with line, linePosition := (cstr line).length, lineCurpos := (cstr line).length })
  else if ch = 0x7f ∨ ch = 0x08 then (none, s.backspaceKey)
  else
    let ch :=
      if ch = '\r'.byte then
        match next with
        | some next => if next = 0 then '\r'.byte else next
        | none => '\r'.byte
      else ch
    if ch = '\r'.byte ∨ ch = '\n'.byte then s.endOfLine else (none, s.typed ch)

/-- A character that was read (`:424-651`). -/
def readChar (ch : Byte) (next : Option Byte) : Option (List Byte) × Shell :=
  if ch = 0x1b then (none, { s with stat := .waitSpecKey })
  else
    match s.stat with
    | .waitNormal => s.normalChar complete ch next
    | .waitSpecKey =>
      if ch = 0x5b then (none, { s with stat := .waitFuncKey })
      else { s with stat := .waitNormal }.normalChar complete ch next
    | .waitFuncKey =>
      let s := { s with stat := .waitNormal }
      if ch = 0x41 then (none, s.upKey)
      else if ch = 0x42 then (none, s.downKey)
      else if ch = 0x44 then (none, s.leftKey)
      else if ch = 0x43 then (none, s.rightKey)
      else s.normalChar complete ch next

end Shell
end RtThread
