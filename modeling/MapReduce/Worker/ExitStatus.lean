/-!
How a process ended, as the operating system encodes it in one number.
-/
namespace MapReduce

/-- A wait status: an exit code in the second byte, or a signal in the first. -/
structure ExitStatus where
  raw : Nat
  deriving DecidableEq, Repr

namespace ExitStatus

def ofCode (code : Nat) : ExitStatus := ⟨code % 256 * 256⟩

def ofSignal (signal : Nat) : ExitStatus := ⟨signal⟩

/-- The signal that stopped or ended the process, or zero. -/
def signal (s : ExitStatus) : Nat := s.raw % 128

def code (s : ExitStatus) : Nat := s.raw / 256 % 256

def isSuccess (s : ExitStatus) : Bool := s.raw == 0

def signalNames : List String :=
  ["", "SIGHUP", "SIGINT", "SIGQUIT", "SIGILL", "SIGTRAP", "SIGABRT", "SIGBUS", "SIGFPE",
    "SIGKILL", "SIGUSR1", "SIGSEGV", "SIGUSR2", "SIGPIPE", "SIGALRM", "SIGTERM", "SIGSTKFLT",
    "SIGCHLD", "SIGCONT", "SIGSTOP", "SIGTSTP", "SIGTTIN", "SIGTTOU", "SIGURG", "SIGXCPU",
    "SIGXFSZ", "SIGVTALRM", "SIGPROF", "SIGWINCH", "SIGIO", "SIGPWR", "SIGSYS"]

def signalText (n : Nat) : String :=
  match signalNames.getD n "" with
  | "" => s!"{n}"
  | name => s!"{n} ({name})"

def text (s : ExitStatus) : String :=
  if s.signal = 0 then s!"exit status: {s.code}"
  else if s.signal ≠ 127 then
    let core := if s.raw / 128 % 2 = 1 then " (core dumped)" else ""
    s!"signal: {signalText s.signal}{core}"
  else if s.raw % 256 = 127 then s!"stopped (not terminated) by signal: {signalText s.code}"
  else if s.raw = 0xFFFF then "continued (WIFCONTINUED)"
  else
    let digits := String.ofList (Nat.toDigits 16 s.raw)
    s!"unrecognised wait status: {s.raw} 0x{digits}"

end ExitStatus

end MapReduce
