import Mathlib.Data.List.Basic
import Proofhouse.Integers

/-!
# The coverage gate

The totals of an lcov run, the table printed from them and the verdict of the
gate.
-/

set_option autoImplicit false

namespace Proofhouse

/-- Line and branch counts read from the lcov records of one source file. -/
@[ext] structure Tally where
  linesFound : U32
  linesHit : U32
  branchesFound : U32
  branchesHit : U32
  deriving DecidableEq, Repr

namespace Tally

instance : Inhabited Tally where
  default :=
    { linesFound := U32.zero, linesHit := U32.zero
      branchesFound := U32.zero, branchesHit := U32.zero }

def isComplete (tally : Tally) : Bool :=
  tally.linesHit = tally.linesFound && tally.branchesHit = tally.branchesFound

/-- The counts stop at the largest value they can hold rather than wrapping. -/
def absorb (tally other : Tally) : Tally where
  linesFound := tally.linesFound.saturatingAdd other.linesFound
  linesHit := tally.linesHit.saturatingAdd other.linesHit
  branchesFound := tally.branchesFound.saturatingAdd other.branchesFound
  branchesHit := tally.branchesHit.saturatingAdd other.branchesHit

end Tally

/-- The count of a tally that a record of a tracefile adds to. -/
inductive Slot where
  | linesFound
  | linesHit
  | branchesFound
  | branchesHit
  deriving DecidableEq, Repr

abbrev Totals := Std.ExtTreeMap String Tally

/-- An output that takes the table line by line, and answers a line it cannot
take with the text of its error. -/
structure Writer (Out : Type) where
  writeLine : String → Out → Except String Unit × Out

/-- Why work ends before its end: an error it returns, or a panic. -/
inductive Stop where
  | error (message : String)
  | panic (message : String)
  deriving DecidableEq, Repr

/-- Work that writes to an output and may stop early. -/
abbrev Printing (Out : Type) := ExceptT Stop (StateM Out)

section

variable {Out : Type}

/-- One row: the label, the two hit-over-found counts, and a marker where
something went unreached. The width is counted in characters. -/
def formatRow (width : Nat) (label : String) (tally : Tally) : Except Stop String :=
  let marker := if tally.isComplete then "" else "  MISSING"
  -- The width in `{label:<width$}` is turned into a `u16`, and too wide a one panics.
  if 65535 < width then .error (.panic "Formatting argument out of range")
  else
    .ok (String.ofList (label.toList.rightpad width ' ') ++
      s!"  lines {tally.linesHit.value}/{tally.linesFound.value}" ++
      s!"  branches {tally.branchesHit.value}/{tally.branchesFound.value}{marker}")

def writeRow (out : Writer Out) (width : Nat) (label : String) (tally : Tally) :
    Printing Out Unit :=
  match formatRow width label tally with
  | .ok row =>
      (ExceptT.mk (out.writeLine row) : ExceptT String (StateM Out) Unit).adapt
        fun error => .error s!"writing the coverage table failed: {error}"
  | .error stop => throw stop

def labelWidth (totals : Totals) : Nat :=
  (totals.keys.map String.utf8ByteSize).max?.getD 0

/-- Write the table, then fail when the total leaves a line or a branch
unreached. A map with no record, or with no branch anywhere, fails too. -/
def report (totals : Totals) (out : Writer Out) : Printing Out Unit := do
  if totals.isEmpty then
    throw (.error "the tracefiles carry no coverage records")
  let width := labelWidth totals
  let mut summary : Tally := default
  for (path, tally) in totals do
    summary := summary.absorb tally
    writeRow out width path tally
  writeRow out width "total" summary
  if summary.branchesFound = U32.zero then
    throw (.error "the records carry no branches at all")
  if summary.isComplete then
    return ()
  else
    throw (.error "the total leaves a line or a branch unreached")

end

end Proofhouse
