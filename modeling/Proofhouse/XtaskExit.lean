import Proofhouse.XtaskTables

/-!
# What the coverage task decides

The exit code depends on nothing but the sums over all records, on how wide the paths
are, and on whether the table could be written. How the records are spread over
tracefiles changes neither the table nor the verdict.
-/

set_option autoImplicit false

namespace Proofhouse

open Library

/-!
## The exit code
-/

/-- The sums of two counts, cut off at the largest count, are equal. -/
def SameTotals (hit found : Slot) (texts : List String) : Prop :=
  min (recordedSum hit texts) U32.max.value = min (recordedSum found texts) U32.max.value

/-- What the records of the texts must add up to for the task to succeed. -/
structure Covers (texts : List String) : Prop where
  branch : 0 < recordedSum .branchesFound texts
  lines : SameTotals .linesHit .linesFound texts
  branches : SameTotals .branchesHit .branchesFound texts

section

variable {Out Err : Type} {out : Writer Out} {start : Out} {quoted : String → String}
  {texts : List String} {totals : Totals}

theorem rowsWritten_of_report (succeeded : ((report totals out).run start).1 = .ok ()) :
    RowsWritten totals out start := by
  cases empty : totals.isEmpty with
  | true => cases (report_of_isEmpty empty).symm.trans succeeded
  | false =>
      rw [report_of_nonempty out empty] at succeeded
      rcases rows : (writeRows out (labelWidth totals) (table totals)).run start with
        ⟨_ | done, written⟩
      · rw [Printing.run, run_bind_of_fails rows] at succeeded
        cases succeeded
      · exact ⟨written, rows⟩

theorem report_of_merged (merged : mergeTexts quoted texts = .ok totals) :
    ((report totals out).run start).1 = .ok () ↔ Covers texts ∧ RowsWritten totals out start := by
  have totalOf := total_count_of_merged merged
  have found : (Tally.total (tallies totals)).branchesFound ≠ U32.zero ↔
      0 < recordedSum .branchesFound texts := by
    have cut := totalOf .branchesFound
    have lower := ((Tally.total (tallies totals)).count .branchesFound).least_le
    rw [ne_eq, BoundedInteger.ext_iff]
    simp only [Tally.count, U32.zero, U32.max] at cut lower ⊢
    omega
  have complete : (Tally.total (tallies totals)).isComplete = true ↔
      SameTotals .linesHit .linesFound texts ∧ SameTotals .branchesHit .branchesFound texts := by
    rw [Tally.isComplete_iff, SameTotals, SameTotals, ← totalOf, ← totalOf, ← totalOf, ← totalOf]
    rfl
  constructor
  · intro succeeded
    have written := rowsWritten_of_report succeeded
    cases empty : totals.isEmpty with
    | true => cases (report_of_isEmpty empty).symm.trans succeeded
    | false =>
        obtain ⟨branch, whole⟩ := (report_eq_ok_iff_verdict empty written).mp succeeded
        obtain ⟨lines, branches⟩ := complete.mp whole
        exact ⟨⟨found.mp branch, lines, branches⟩, written⟩
  · rintro ⟨⟨branch, lines, branches⟩, written⟩
    have branchful := found.mpr branch
    have nonempty : totals.isEmpty = false := by
      cases empty : totals.isEmpty with
      | false => rfl
      | true =>
          rw [tallies_eq_nil_iff.mpr empty] at branchful
          exact absurd rfl branchful
    exact (report_eq_ok_iff_verdict nonempty written).mpr
      ⟨branchful, complete.mpr ⟨lines, branches⟩⟩

variable {readToString : String → Except String String} {panicHook : String → Err → Err}
  {err : Writer Err}

theorem main_eq_success_iff {commandLine : List String} {console : Xtask.Console Out Err} :
    (Xtask.main quoted readToString panicHook out err commandLine console).1 = .success ↔
      ((Xtask.run quoted readToString (commandLine.drop 1) out).run console.stdout).1 =
        .ok () := by
  rw [Xtask.main, Printing.run]
  rcases ExceptT.run (Xtask.run quoted readToString (commandLine.drop 1) out) console.stdout with
    ⟨(_ | _) | done, stdout⟩
  · exact iff_of_false (fun succeeds => by cases succeeds) fun succeeds => by cases succeeds
  · exact iff_of_false (fun succeeds => by cases succeeds) fun succeeds => by cases succeeds
  · exact iff_of_true rfl rfl

theorem main_eq_panicked_iff {commandLine : List String} {console : Xtask.Console Out Err} :
    (Xtask.main quoted readToString panicHook out err commandLine console).1 = .panicked ↔
      ∃ message,
        ((Xtask.run quoted readToString (commandLine.drop 1) out).run console.stdout).1 =
          .error (.panic message) := by
  rw [Xtask.main, Printing.run]
  rcases ExceptT.run (Xtask.run quoted readToString (commandLine.drop 1) out) console.stdout with
    ⟨(_ | message) | done, stdout⟩
  · refine iff_of_false (fun panics => by cases panics) ?_
    rintro ⟨_, panics⟩
    cases panics
  · exact iff_of_true rfl ⟨message, rfl⟩
  · refine iff_of_false (fun panics => by cases panics) ?_
    rintro ⟨_, panics⟩
    cases panics

/-- Before the report, a task ends in an error if at all. -/
theorem run_cases (quoted : String → String) (readToString : String → Except String String)
    (args : List String) (out : Writer Out) :
    (∃ message, Xtask.run quoted readToString args out = throw (.error message) ∧
      ¬∃ paths totals, args = "coverage" :: paths ∧
        collect quoted readToString paths = .ok totals) ∨
    ∃ paths totals, args = "coverage" :: paths ∧
      collect quoted readToString paths = .ok totals ∧
      Xtask.run quoted readToString args out = report totals out := by
  cases args with
  | nil => exact .inl ⟨_, rfl, nofun⟩
  | cons task paths =>
      rw [Xtask.run]
      by_cases named : task = "coverage"
      · subst named
        rw [if_pos rfl]
        cases collected : collect quoted readToString paths with
        | ok totals => exact .inr ⟨paths, totals, rfl, collected, rfl⟩
        | error message =>
            refine .inl ⟨message, rfl, ?_⟩
            rintro ⟨others, totals, same, found⟩
            cases same
            cases collected.symm.trans found
      · rw [if_neg named]
        refine .inl ⟨_, rfl, ?_⟩
        rintro ⟨others, totals, same, -⟩
        exact named (List.cons.inj same).1

/-- How a run ends otherwise than with an error is how its report does. -/
theorem run_result_iff {args : List String} {result : Except Stop Unit}
    (other : ∀ message, result ≠ .error (.error message)) :
    ((Xtask.run quoted readToString args out).run start).1 = result ↔
      ∃ paths totals, args = "coverage" :: paths ∧
        collect quoted readToString paths = .ok totals ∧
        ((report totals out).run start).1 = result := by
  rcases run_cases quoted readToString args out with ⟨message, stops, none⟩ |
    ⟨paths, totals, rfl, collected, reports⟩
  · rw [stops]
    refine iff_of_false (fun same => other message same.symm) ?_
    rintro ⟨paths, totals, same, collected, -⟩
    exact none ⟨paths, totals, same, collected⟩
  · rw [reports]
    refine ⟨fun reported => ⟨paths, totals, rfl, collected, reported⟩, ?_⟩
    rintro ⟨others, again, same, found, reported⟩
    cases same
    cases collected.symm.trans found
    exact reported

end

/-- The process succeeds for a coverage task whose tracefiles can all be read, whose
records add up, and whose table is narrow enough and could be written. It panics where
they can be read and the table is too wide. -/
theorem main_exits {Out Err : Type} (quoted : String → String)
    (readToString : String → Except String String) (panicHook : String → Err → Err)
    (out : Writer Out) (err : Writer Err) (commandLine : List String)
    (console : Xtask.Console Out Err) :
    ((Xtask.main quoted readToString panicHook out err commandLine console).1 = .success ↔
      ∃ paths sources, commandLine.drop 1 = "coverage" :: paths ∧
        AllReadable readToString paths ∧ Covers (textsOf readToString paths) ∧
        SourcesOf (textsOf readToString paths) sources ∧
        (∀ source ∈ sources, source.utf8ByteSize ≤ 65535) ∧
        out.TakesAll (tableText (textsOf readToString paths) sources) console.stdout) ∧
    ((Xtask.main quoted readToString panicHook out err commandLine console).1 = .panicked ↔
      ∃ paths sources, commandLine.drop 1 = "coverage" :: paths ∧
        AllReadable readToString paths ∧ SourcesOf (textsOf readToString paths) sources ∧
        ∃ source ∈ sources, 65535 < source.utf8ByteSize) := by
  have notError : ∀ message, (.ok () : Except Stop Unit) ≠ .error (.error message) :=
    fun _ same => by cases same
  have panicOther : ∀ text message,
      (.error (.panic text) : Except Stop Unit) ≠ .error (.error message) :=
    fun _ _ same => by cases same
  rw [main_eq_success_iff, main_eq_panicked_iff, run_result_iff notError]
  constructor
  · constructor
    · rintro ⟨paths, totals, named, collected, reported⟩
      obtain ⟨-, readable, merged⟩ := collect_eq_ok_iff.mp collected
      obtain ⟨covers, written⟩ := (report_of_merged merged).mp reported
      obtain ⟨narrow, taken⟩ := (rowsWritten_iff merged).mp written
      exact ⟨paths, totals.keys, named, readable, covers, sourcesOf_keys merged, narrow, taken⟩
    · rintro ⟨paths, sources, named, readable, covers, ofTexts, narrow, taken⟩
      have nonempty : paths ≠ [] := by
        rintro rfl
        exact Int.lt_irrefl 0 covers.branch
      obtain ⟨totals, merged⟩ := exists_merged quoted readable
      obtain rfl := (sourcesOf_keys merged).unique ofTexts
      have written := (rowsWritten_iff merged).mpr ⟨narrow, taken⟩
      exact ⟨paths, totals, named, collect_eq_ok_iff.mpr ⟨nonempty, readable, merged⟩,
        (report_of_merged merged).mpr ⟨covers, written⟩⟩
  · constructor
    · rintro ⟨message, panics⟩
      obtain ⟨paths, totals, named, collected, reported⟩ :=
        (run_result_iff (panicOther message)).mp panics
      obtain ⟨-, readable, merged⟩ := collect_eq_ok_iff.mp collected
      exact ⟨paths, totals.keys, named, readable, sourcesOf_keys merged,
        report_panics_iff.mp ⟨message, reported⟩⟩
    · rintro ⟨paths, sources, named, readable, ofTexts, wide⟩
      have nonempty : paths ≠ [] := by
        rintro rfl
        obtain ⟨source, member, -⟩ := wide
        obtain ⟨record, inTexts, -⟩ := (ofTexts.named source).mp member
        cases inTexts
      obtain ⟨totals, merged⟩ := exists_merged quoted readable
      obtain rfl := (sourcesOf_keys merged).unique ofTexts
      obtain ⟨message, reported⟩ := report_panics_iff.mpr wide
      exact ⟨message, (run_result_iff (panicOther message)).mpr ⟨paths, totals, named,
        collect_eq_ok_iff.mpr ⟨nonempty, readable, merged⟩, reported⟩⟩

/-!
## The order of the tracefiles
-/

section

variable {Out Err : Type} {quoted : String → String}
  {readToString : String → Except String String} {panicHook : String → Err → Err}
  {out : Writer Out} {err : Writer Err} {paths others : List String}

theorem quiet_perm (perm : paths.Perm others)
    (quiet : paths.findSome? (complaint? quoted readToString) = none) :
    others.findSome? (complaint? quoted readToString) = none :=
  List.findSome?_eq_none_iff.mpr fun path member =>
    List.findSome?_eq_none_iff.mp quiet path (perm.mem_iff.mpr member)

theorem collect_perm (perm : paths.Perm others)
    (quiet : paths.findSome? (complaint? quoted readToString) = none) :
    collect quoted readToString paths = collect quoted readToString others := by
  cases paths with
  | nil => rw [List.nil_perm.mp perm]
  | cons path paths =>
      have nonempty : others ≠ [] := fun empty => by
        rw [empty] at perm
        cases List.perm_nil.mp perm
      have merged := (mergeTexts_eq_ok_iff quoted).mpr ⟨readableTexts_of_quiet quiet, rfl⟩
      rw [collect_of_quiet (List.cons_ne_nil _ _) quiet,
        collect_of_quiet nonempty (quiet_perm perm quiet), merged]
      exact (mergeTexts_perm (perm.filterMap _) merged).symm

theorem main_of_complaint {program message : String} {console : Xtask.Console Out Err}
    (complains : paths.findSome? (complaint? quoted readToString) = some message) :
    Xtask.main quoted readToString panicHook out err (program :: "coverage" :: paths) console =
      (.failure, ⟨console.stdout, (err.writeLine s!"xtask: {message}" console.stderr).2⟩) := by
  have fails : ExceptT.run (Xtask.run quoted readToString ("coverage" :: paths) out)
      console.stdout = (.error (.error message), console.stdout) := by
    rw [Xtask.run, if_pos rfl, collect_of_complaint complains]
    rfl
  rw [Xtask.main, List.drop_succ_cons, List.drop_zero, fails]

theorem main_congr_collect {program : String} {console : Xtask.Console Out Err}
    (same : collect quoted readToString paths = collect quoted readToString others) :
    Xtask.main quoted readToString panicHook out err (program :: "coverage" :: paths) console =
      Xtask.main quoted readToString panicHook out err (program :: "coverage" :: others)
        console := by
  simp only [Xtask.main, List.drop_succ_cons, List.drop_zero, Xtask.run, same]

end

/-- The order in which the tracefiles are named decides nothing but which of
several complaints is the one that is made. -/
theorem main_order_independent {Out Err : Type} (quoted : String → String)
    (readToString : String → Except String String) (panicHook : String → Err → Err)
    (out : Writer Out) (err : Writer Err) (program : String) (console : Xtask.Console Out Err)
    {paths others : List String} (perm : paths.Perm others) :
    let first :=
      Xtask.main quoted readToString panicHook out err (program :: "coverage" :: paths) console
    let second :=
      Xtask.main quoted readToString panicHook out err (program :: "coverage" :: others) console
    first.1 = second.1 ∧ first.2.stdout = second.2.stdout ∧
      (first.2.stderr = second.2.stderr ∨
        ∃ path ∈ paths, ∃ other ∈ paths, ∃ message otherMessage,
          complaint? quoted readToString path = some message ∧
          complaint? quoted readToString other = some otherMessage ∧
          first.2.stderr = (err.writeLine s!"xtask: {message}" console.stderr).2 ∧
          second.2.stderr = (err.writeLine s!"xtask: {otherMessage}" console.stderr).2) := by
  intro first second
  cases complains : paths.findSome? (complaint? quoted readToString) with
  | none =>
      have same : first = second := main_congr_collect (collect_perm perm complains)
      exact ⟨by rw [same], by rw [same], .inl (by rw [same])⟩
  | some message =>
      have firstIs : first = (.failure, ⟨console.stdout, _⟩) := main_of_complaint complains
      cases complainsToo : others.findSome? (complaint? quoted readToString) with
      | none => cases (quiet_perm perm.symm complainsToo).symm.trans complains
      | some otherMessage =>
          have secondIs : second = (.failure, ⟨console.stdout, _⟩) := main_of_complaint complainsToo
          obtain ⟨path, member, about⟩ := List.exists_of_findSome?_eq_some complains
          obtain ⟨other, otherMember, otherAbout⟩ := List.exists_of_findSome?_eq_some complainsToo
          rw [firstIs, secondIs]
          exact ⟨rfl, rfl, .inr ⟨path, member, other, perm.mem_iff.mpr otherMember, message,
            otherMessage, about, otherAbout, rfl, rfl⟩⟩

theorem main_order_independent_two_files :
    (Xtask.main id sampleFiles (fun _ lines => lines) keepLines keepLines
      ["xtask", "coverage", "loom.info", "unit.info"] ⟨[], []⟩).1 = .success := by
  have passes : (Xtask.main id sampleFiles (fun _ lines => lines) keepLines keepLines
      ["xtask", "coverage", "unit.info", "loom.info"] ⟨[], []⟩).1 = .success := by
    decide +kernel
  have swapped : ["loom.info", "unit.info"].Perm ["unit.info", "loom.info"] := .swap _ _ _
  have same := main_order_independent id sampleFiles (fun _ lines => lines) keepLines keepLines
    "xtask" ⟨[], []⟩ swapped
  exact same.1.trans passes

/-!
## Concatenated tracefiles
-/

/-- The text is empty or ends in a line feed. -/
def Ended (text : String) : Prop :=
  text = "" ∨ ∃ front, text.toList = front ++ ['\n']

theorem lines_append {left : String} (ended : Ended left) (right : String) :
    lines (left ++ right) = lines left ++ lines right := by
  rcases ended with rfl | ⟨front, split⟩
  · rw [String.empty_append]
    rfl
  · have pieces : (left ++ right).toList.splitOn '\n' =
        front.splitOn '\n' ++ right.toList.splitOn '\n' := by
      rw [String.toList_append, split, List.append_assoc, List.singleton_append,
        List.splitOn_append_cons_self]
    have alone : left.toList.splitOn '\n' = front.splitOn '\n' ++ [[]] := by
      rw [split, List.splitOn_append_cons_self]
      rfl
    have nonempty := List.splitOn_ne_nil '\n' right.toList
    simp only [lines, pieces, alone, List.dropLast_append_of_ne_nil nonempty,
      List.getLast?_append_of_ne_nil _ nonempty, List.dropLast_concat, List.getLast?_concat]
    simp

theorem taggedLines_append {left : String} (ended : Ended left) (right : String) :
    taggedLines (left ++ right) = taggedLines left ++ taggedLines right := by
  rw [taggedLines, lines_append ended, List.filterMap_append]
  rfl

theorem latestSource_append {earlier later : List (String × String)}
    (named : latestSource later ≠ none) :
    latestSource (earlier ++ later) = latestSource later := by
  obtain ⟨source, named⟩ := Option.ne_none_iff_exists'.mp named
  obtain ⟨line, last, rfl⟩ := Option.map_eq_some_iff.mp named
  rw [named, latestSource, List.filter_append, List.getLast?_append, last]
  rfl

/-- Behind other lines, lines that name a source file of their own say the same. -/
theorem countRecords_append {left right : String} (ended : Ended left)
    (sourced : ∀ record ∈ countRecords right, record.source ≠ none) :
    countRecords (left ++ right) = countRecords left ++ countRecords right := by
  simp only [countRecords, taggedLines_append ended, List.zipIdx_append, List.filterMap_append]
  congr 1
  · refine List.filterMap_congr fun entry member => ?_
    obtain ⟨within, -⟩ := List.mem_zipIdx' member
    rw [List.take_append_of_le_length (Nat.le_of_lt within)]
  · rw [@List.zipIdx_eq_map_add _ (taggedLines right), List.filterMap_map]
    refine List.filterMap_congr fun entry member => ?_
    obtain ⟨⟨tag, value⟩, index⟩ := entry
    simp only [Function.comp_apply]
    cases found : Slot.tagged? tag with
    | none => rfl
    | some slot =>
        have own : latestSource ((taggedLines right).take index) ≠ none :=
          sourced ⟨_, slot, value⟩ (List.mem_filterMap.mpr ⟨_, member, by rw [found]; rfl⟩)
        rw [Nat.zero_add, List.take_length_add_append, latestSource_append own]

theorem parseLcov_append {left right : String} (quoted : String → String) (ended : Ended left)
    (sourced : ∀ record ∈ countRecords right, record.source ≠ none) :
    parseLcov quoted (left ++ right) =
      (do parseLcov quoted left; parseLcov quoted right) := by
  rw [parseLcov_eq_forM, parseLcov_eq_forM, parseLcov_eq_forM, countRecords_append ended sourced,
    List.forM_append]

/-- A tracefile that is two put one behind the other gives what the two give, down
to the message of a failure. -/
theorem main_concatenated {Out Err : Type} (quoted : String → String)
    (readToString : String → Except String String) (panicHook : String → Err → Err)
    (out : Writer Out) (err : Writer Err) (program : String) (console : Xtask.Console Out Err)
    {first second whole left right : String}
    (readsFirst : readToString first = .ok left) (readsSecond : readToString second = .ok right)
    (readsWhole : readToString whole = .ok (left ++ right)) (ended : Ended left)
    (sourced : ∀ record ∈ countRecords right, record.source ≠ none)
    (before after : List String) :
    Xtask.main quoted readToString panicHook out err
        (program :: "coverage" :: (before ++ whole :: after)) console =
      Xtask.main quoted readToString panicHook out err
        (program :: "coverage" :: (before ++ first :: second :: after)) console := by
  have loop : ∀ earlier, readAll quoted readToString (earlier ++ whole :: after) =
      readAll quoted readToString (earlier ++ first :: second :: after) := by
    intro earlier
    induction earlier with
    | nil =>
        simp only [List.nil_append, readAll_cons, readText, readsFirst, readsSecond, readsWhole,
          pure_bind, parseLcov_append quoted ended sourced, bind_assoc]
    | cons path earlier ih =>
        rw [List.cons_append, List.cons_append, readAll_cons, readAll_cons, ih]
  have collected : collect quoted readToString (before ++ whole :: after) =
      collect quoted readToString (before ++ first :: second :: after) := by
    rw [collect_eq_finish (by simp), collect_eq_finish (by simp), loop]
  exact main_congr_collect collected

/-- The two sample tracefiles as one, and both as they are. -/
def sampleFilesAndBoth (path : String) : Except String String :=
  if path = "both.info" then
    .ok "SF:src/lexer.rs\nLF:12\nLH:12\nBRF:4\nBRH:4\nSF:src/sync.rs\r\nLF:7\r\nLH:7\r\n"
  else sampleFiles path

theorem main_concatenated_then_missing :
    Xtask.main id sampleFilesAndBoth (fun _ lines => lines) keepLines keepLines
        ["xtask", "coverage", "both.info", "missing.info"] ⟨[], []⟩ =
      (.failure, ⟨[], ["xtask: missing.info: No such file or directory (os error 2)"]⟩) := by
  have sourced : ∀ record ∈ countRecords "SF:src/sync.rs\r\nLF:7\r\nLH:7\r\n",
      record.source ≠ none := by decide +kernel
  have split : Xtask.main id sampleFilesAndBoth (fun _ lines => lines) keepLines keepLines
      ["xtask", "coverage", "unit.info", "loom.info", "missing.info"] ⟨[], []⟩ =
      (.failure, ⟨[], ["xtask: missing.info: No such file or directory (os error 2)"]⟩) := by
    decide +kernel
  have ended : Ended "SF:src/lexer.rs\nLF:12\nLH:12\nBRF:4\nBRH:4\n" :=
    .inr ⟨"SF:src/lexer.rs\nLF:12\nLH:12\nBRF:4\nBRH:4".toList, by decide +kernel⟩
  have same := @main_concatenated _ _ id sampleFilesAndBoth (fun _ lines => lines) keepLines
    keepLines "xtask" ⟨[], []⟩ "unit.info" "loom.info" "both.info" _ _ rfl rfl rfl ended sourced
    [] ["missing.info"]
  exact same.trans split

end Proofhouse
