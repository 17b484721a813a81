import Proofhouse.Coverage

/-!
# Tracefiles

The reading of lcov tracefiles, line by line, into one map of totals.
-/

set_option autoImplicit false

namespace Proofhouse

open Library

/-!
## Text
-/

/-- One carriage return less at the end. -/
def stripReturn (line : List Char) : List Char :=
  if line.getLast? = some '\r' then line.dropLast else line

/-- `str::lines`. A carriage return belongs to the line feed right after it, and
no line follows the last line feed. -/
def lines (text : String) : List String :=
  let pieces := text.toList.splitOn '\n'
  let ended := pieces.dropLast.map stripReturn
  let unended := pieces.getLast?.toList.filter (! ·.isEmpty)
  (ended ++ unended).map String.ofList

/-- `str::split_once` at a character. -/
def splitOnce (delimiter : Char) (text : String) : Option (String × String) :=
  match text.toList.dropWhile (· != delimiter) with
  | [] => none
  | _ :: after =>
      some (String.ofList (text.toList.takeWhile (· != delimiter)), String.ofList after)

/-- `IntErrorKind`, as far as an unsigned type reports it. -/
inductive IntErrorKind where
  | empty
  | invalidDigit
  | posOverflow
  deriving DecidableEq, Repr

def IntErrorKind.text : IntErrorKind → String
  | .empty => "cannot parse integer from empty string"
  | .invalidDigit => "invalid digit found in string"
  | .posOverflow => "number too large to fit in target type"

namespace U32

/-- The digit loop of `str::parse::<u32>`, with the number read so far. -/
def readDigits (result : U32) : List Char → Except IntErrorKind U32
  | [] => .ok result
  | digit :: digits =>
      if digit.isDigit then
        match BoundedInteger.ofInt? (10 * result.value + (digit.toNat - '0'.toNat : Nat)) with
        | some next => readDigits next digits
        | none => .error .posOverflow
      else .error .invalidDigit

/-- `str::parse::<u32>`. A plus sign may stand in front of the digits. -/
def parse (text : String) : Except IntErrorKind U32 :=
  match text.toList with
  | [] => .error .empty
  | ['+'] => .error .invalidDigit
  | '+' :: digits => readDigits zero digits
  | digits => readDigits zero digits

end U32

/-!
## Records
-/

def Slot.ofTag? : String → Option Slot
  | "LF" => some .linesFound
  | "LH" => some .linesHit
  | "BRF" => some .branchesFound
  | "BRH" => some .branchesHit
  | _ => none

def Tally.add (slot : Slot) (count : U32) (tally : Tally) : Tally :=
  match slot with
  | .linesFound => { tally with linesFound := tally.linesFound.saturatingAdd count }
  | .linesHit => { tally with linesHit := tally.linesHit.saturatingAdd count }
  | .branchesFound => { tally with branchesFound := tally.branchesFound.saturatingAdd count }
  | .branchesHit => { tally with branchesHit := tally.branchesHit.saturatingAdd count }

/-- The entry of a path, made where it is missing, with a count added to it. -/
def fileCount (path : String) (slot : Slot) (count : U32) (totals : Totals) : Totals :=
  totals.insert path ((totals[path]?.getD default).add slot count)

/-- Work on a map of totals that may fail with a message. -/
abbrev Filling := ExceptT String (StateM Totals)

def orFail {α : Type} (message : String) : Option α → Filling α
  | some value => return value
  | none => throw message

section

-- The `{:?}` form of a string rests on the table of printable characters, and
-- only ever stands in a message.
variable (quoted : String → String)

/-- What a record with one of the four tags does. -/
def fileRecord (current : Option String) (tag : String) (slot : Slot) (value : String) :
    Filling Unit := do
  let path ← orFail s!"a {tag} record arrives before any source file" current
  match U32.parse value with
  | .ok count => modify (fileCount path slot count)
  | .error error => throw s!"unreadable {tag} count {quoted value}: {error.text}"

/-- One line of a tracefile. The result is the source file named last. -/
def parseLine (current : Option String) (line : String) : Filling (Option String) :=
  match splitOnce ':' line with
  | none => return current
  | some (tag, value) =>
      if tag = "SF" then return some value
      else
        match Slot.ofTag? tag with
        | some slot => do
            fileRecord quoted current tag slot value
            return current
        | none => return current

def parseLcov (text : String) : Filling Unit := do
  let _ ← (lines text).foldlM (parseLine quoted) none

def usage : String :=
  "usage: cargo xtask coverage <lcov-file>..."

/-- The map that some work has left, where it has not failed. -/
def Filling.finish (filling : Filling Unit) : Except String Totals :=
  match ExceptT.run filling ∅ with
  | (.ok (), totals) => .ok totals
  | (.error message, _) => .error message

/-- The text of a file, over any answer that reading it may give. -/
def readText (readToString : String → Except String String) (path : String) : Filling String :=
  match readToString path with
  | .ok text => return text
  | .error error => throw s!"{path}: {error}"

/-- Every tracefile read into one map. -/
def collect (readToString : String → Except String String) (paths : List String) :
    Except String Totals :=
  if paths.isEmpty then .error s!"name at least one tracefile; {usage}"
  else
    Filling.finish do
      for path in paths do
        let text ← readText readToString path
        parseLcov quoted text

end

end Proofhouse
