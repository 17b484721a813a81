import Proofhouse.Tracefiles

/-!
# The task runner

The dispatch of the task that the first argument names, and what a process makes
of its outcome: an exit code, and a line about a failure.
-/

set_option autoImplicit false

namespace Proofhouse.Xtask

section

variable {Out Err : Type} (quoted : String → String)
  (readToString : String → Except String String)

/-- Dispatch the task named by the first argument. -/
def run (args : List String) (out : Writer Out) : Printing Out Unit :=
  match args with
  | [] => throw (.error s!"name a task; {usage}")
  | task :: rest =>
      if task = "coverage" then
        match collect quoted readToString rest with
        | .ok totals => report totals out
        | .error message => throw (.error message)
      else throw (.error s!"unknown task {quoted task}; {usage}")

/-- How the process ends. A panic has an exit code of its own, 101. -/
inductive ExitCode where
  | success
  | failure
  | panicked
  deriving DecidableEq, Repr

/-- The two outputs of the process. -/
structure Console (Out Err : Type) where
  stdout : Out
  stderr : Err
  deriving DecidableEq

-- What the panic hook prints depends on the environment.
variable (panicHook : String → Err → Err)

/-- The process, from its whole command line. A failing write to the error output
goes unread. -/
def main (out : Writer Out) (err : Writer Err) (commandLine : List String)
    (console : Console Out Err) : ExitCode × Console Out Err :=
  match ExceptT.run (run quoted readToString (commandLine.drop 1) out) console.stdout with
  | (.ok (), stdout) => (.success, { console with stdout })
  | (.error (.error message), stdout) =>
      (.failure, ⟨stdout, (err.writeLine s!"xtask: {message}" console.stderr).2⟩)
  | (.error (.panic message), stdout) =>
      (.panicked, ⟨stdout, panicHook message console.stderr⟩)

end

end Proofhouse.Xtask
