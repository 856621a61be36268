import X1.Fmt.Contract

/-! # The console of printf.c

`vprintf` formats into a static buffer and writes it to the serial port up to its first
NUL: what is printed is the text of the format, cut to what the buffer holds, and cut
again where an argument of `%c` has put a NUL into it.
-/
namespace X1.Fmt
open X1.Word X1.CString X1.Checked

def PRINTF_BUFFER_SIZE : ℕ := 1024

/-- `for (ptr = printf_buffer; *ptr != '\0'; ptr++) uart_write(*ptr);` -/
def writeString (m : Bytes) : ℕ → ℕ → Except Fault (List UInt8)
  | 0,_ => .error .loop
  | turns + 1,ptr =>
    if m ptr = 0 then .ok [] else (writeString m turns (add ptr 1)).map (m ptr :: ·)

/-- The length that is returned, the bytes written to the port, and the state at the end. The loop
would leave the buffer without a NUL in it. -/
def vprintf (mem : Bytes) (buffer : ℕ) (format : Ptr) (args : List Arg) :
    Except Fault (ℕ × List UInt8 × Sprintf) := do
  let (length,s) ← fmtVsnprintf mem buffer PRINTF_BUFFER_SIZE format args
  let out ← writeString s.mem PRINTF_BUFFER_SIZE buffer
  return (length,out,s)

/-- What a format and its arguments print. -/
def consoleText (format : Ptr) (args : List Arg) : Except Fault (List UInt8) := do
  let (text,_,_) ← formatText format.length format args 0
  let _ ← checkLength text.length
  return (text.take (PRINTF_BUFFER_SIZE - 1)).takeWhile (· ≠ 0)

section
variable {m : Bytes} {ptr turns : ℕ} {cs : List UInt8}

end

end X1.Fmt
