import Fpag.Lib.Bytes

/-!
`logging::LogLevel` and the texts that stand for a level in a log.

A level is the byte of its enumerator, as it crosses the queue: `Trace` is 0 and `Fatal` 5,
`WithoutPrefix` is 6, and what lies above, up to `Off`, has no text of its own.
-/

namespace Fpag.Logging

/-- `LogLevel::WithoutPrefix`. -/
def withoutPrefix : UInt8 := 6

/-- `term::ColorStyle`. -/
inductive ColorStyle : Type
  | off
  | ansi16
  | ansi256
  | ansiTrueColor
  deriving DecidableEq, Repr

/-- `log_level_to_string`. -/
def logLevelToString (level : UInt8) : List UInt8 :=
  if level = 0 then text "trace"
  else if level = 1 then text "debug"
  else if level = 2 then text "info"
  else if level = 3 then text "warn"
  else if level = 4 then text "error"
  else if level = 5 then text "fatal"
  else text "none"

/-- `log_level_to_string_with_padding_upper`. -/
def logLevelToStringWithPaddingUpper (level : UInt8) : List UInt8 :=
  if level = 0 then text "TRACE"
  else if level = 1 then text "DEBUG"
  else if level = 2 then text "INFO "
  else if level = 3 then text "WARN "
  else if level = 4 then text "ERROR"
  else if level = 5 then text "FATAL"
  else text "NONE "

/-- `PLAIN_PREFIXES`, `ANSI16_PREFIXES`, `ANSI256_PREFIXES` and `ANSI_TRUE_COLOR_PREFIXES`. -/
def prefixes : ColorStyle → List (List UInt8)
  | .off => [text "trace: ", text "debug: ", text " info: ", text " warn: ", text "error: ",
      text "fatal: "]
  | .ansi16 => [text "\x1b[1;90mtrace\x1b[0m: ", text "\x1b[1;34mdebug\x1b[0m: ",
      text "\x1b[1;32m info\x1b[0m: ", text "\x1b[1;33m warn\x1b[0m: ",
      text "\x1b[1;31merror\x1b[0m: ", text "\x1b[1;35mfatal\x1b[0m: "]
  | .ansi256 => [text "\x1b[1;38;5;242mtrace\x1b[0m: ", text "\x1b[1;38;5;39mdebug\x1b[0m: ",
      text "\x1b[1;38;5;40m info\x1b[0m: ", text "\x1b[1;38;5;220m warn\x1b[0m: ",
      text "\x1b[1;38;5;196merror\x1b[0m: ", text "\x1b[1;38;5;201mfatal\x1b[0m: "]
  | .ansiTrueColor => [text "\x1b[1;38;2;100;100;100mtrace\x1b[0m: ",
      text "\x1b[1;38;2;140;210;230mdebug\x1b[0m: ", text "\x1b[1;38;2;150;230;140m info\x1b[0m: ",
      text "\x1b[1;38;2;230;200;100m warn\x1b[0m: ", text "\x1b[1;38;2;230;110;120merror\x1b[0m: ",
      text "\x1b[1;38;2;180;120;230mfatal\x1b[0m: "]

/-- `log_prefix`. -/
def logPrefix (level : UInt8) (style : ColorStyle) : List UInt8 :=
  if withoutPrefix ≤ level then [] else (prefixes style).getD level.toNat []

end Fpag.Logging
