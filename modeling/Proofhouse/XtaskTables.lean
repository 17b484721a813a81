import Mathlib.Data.List.Sort
import Proofhouse.XtaskProperties

/-!
# What the coverage task prints

The table has one row for each source file, with exact sums cut off at the
largest count. It is printed line by line, or not at all where a path is too wide.
-/

set_option autoImplicit false

namespace Proofhouse

open Library

/-!
## The text of the table
-/

/-- A row with these counts. The label is filled up with spaces to so many
characters. -/
def rowText (width : Nat) (label : String) (counts : Slot → Int) : String :=
  label ++ String.ofList (List.replicate (width - label.length) ' ') ++
    "  lines " ++ toString (counts .linesHit) ++ "/" ++ toString (counts .linesFound) ++
    "  branches " ++ toString (counts .branchesHit) ++ "/" ++ toString (counts .branchesFound) ++
    if counts .linesHit = counts .linesFound ∧ counts .branchesHit = counts .branchesFound then ""
    else "  MISSING"

/-- The rows for these sources, and behind them the one for all records. -/
def tableText (texts sources : List String) : List String :=
  let width := (sources.map String.utf8ByteSize).max?.getD 0
  sources.map (fun source =>
      rowText width source fun slot => min (filedSum source slot texts) 4294967295) ++
    [rowText width "total" fun slot => min (recordedSum slot texts) 4294967295]

/-- The sources that some record of the texts is under, in order. -/
structure SourcesOf (texts sources : List String) : Prop where
  ordered : sources.Pairwise (· < ·)
  named : ∀ source, source ∈ sources ↔
    ∃ record ∈ texts.flatMap countRecords, record.source = some source

theorem SourcesOf.unique {texts sources others : List String} (first : SourcesOf texts sources)
    (second : SourcesOf texts others) : sources = others :=
  first.ordered.eq_of_mem_iff second.ordered fun source =>
    (first.named source).trans (second.named source).symm

/-- The line that a row of the table prints as. -/
def lineOf (width : Nat) (row : String × Tally) : String :=
  rowText width row.1 fun slot => (row.2.count slot).value

theorem formatRow_of_within {width : Nat} (within : width ≤ 65535) (label : String)
    (tally : Tally) : formatRow width label tally = .ok (lineOf width (label, tally)) := by
  have marker : (if tally.isComplete = true then "" else "  MISSING") =
      if (tally.count .linesHit).value = (tally.count .linesFound).value ∧
        (tally.count .branchesHit).value = (tally.count .branchesFound).value then ""
      else "  MISSING" :=
    if_congr tally.isComplete_iff rfl rfl
  have padded : String.ofList (label.toList.rightpad width ' ') =
      label ++ String.ofList (List.replicate (width - label.length) ' ') := by
    rw [List.rightpad, String.ofList_append, String.ofList_toList, String.length_toList]
  rw [formatRow, if_neg (Nat.not_lt.mpr within), lineOf, rowText, ← marker, padded]
  simp only [String.append_assoc, Tally.count]
  rfl

namespace Writer

variable {Out : Type}

/-- The output takes these lines, one after the other. -/
def TakesAll (out : Writer Out) : List String → Out → Prop
  | [], _ => True
  | line :: lines, start =>
      (out.writeLine line start).1 = .ok () ∧ out.TakesAll lines (out.writeLine line start).2

/-- The output once these lines have been written. -/
def withLines (out : Writer Out) (lines : List String) (start : Out) : Out :=
  lines.foldl (fun output line => (out.writeLine line output).2) start

theorem takesAll_of_accepts (out : Writer Out)
    (accepts : ∀ line output, (out.writeLine line output).1 = .ok ()) (lines : List String)
    (start : Out) : out.TakesAll lines start := by
  induction lines generalizing start with
  | nil => trivial
  | cons line lines ih => exact ⟨accepts line start, ih _⟩

end Writer

section Rows

variable {Out : Type} {out : Writer Out} {width : Nat}

theorem run_writeRow_of_within (within : width ≤ 65535) (label : String) (tally : Tally)
    (start : Out) :
    (writeRow out width label tally).run start =
      ((out.writeLine (lineOf width (label, tally)) start).1.mapError
        fun error => .error s!"writing the coverage table failed: {error}",
        (out.writeLine (lineOf width (label, tally)) start).2) := by
  rw [writeRow, formatRow_of_within within]
  rfl

theorem run_writeRows_cons (within : width ≤ 65535) (row : String × Tally)
    (rows : List (String × Tally)) (start : Out) :
    (writeRows out width (row :: rows)).run start =
      match out.writeLine (lineOf width row) start with
      | (.ok (), next) => (writeRows out width rows).run next
      | (.error error, next) =>
          (.error (.error s!"writing the coverage table failed: {error}"), next) := by
  obtain ⟨label, tally⟩ := row
  have once := @run_writeRow_of_within _ out _ within label tally start
  rcases taken : out.writeLine (lineOf width (label, tally)) start with ⟨_ | done, next⟩
  · rw [taken] at once
    exact run_bind_of_fails once
  · rw [taken] at once
    exact Printing.run_bind_of_ok once

theorem writeRows_eq_ok_iff (within : width ≤ 65535) {rows : List (String × Tally)}
    {start written : Out} :
    (writeRows out width rows).run start = (.ok (), written) ↔
      out.TakesAll (rows.map (lineOf width)) start ∧
        out.withLines (rows.map (lineOf width)) start = written := by
  induction rows generalizing start with
  | nil =>
      change ((.ok (), start) : Except Stop Unit × Out) = (.ok (), written) ↔ _
      simp [Writer.TakesAll, Writer.withLines]
  | cons row rows ih =>
      rw [run_writeRows_cons within]
      simp only [List.map_cons, Writer.TakesAll, Writer.withLines, List.foldl_cons]
      rcases out.writeLine (lineOf width row) start with ⟨_ | done, next⟩
      · simp
      · simp [ih, Writer.withLines]

theorem writeRows_ne_panic (within : width ≤ 65535) (rows : List (String × Tally)) (start : Out)
    (message : String) : ((writeRows out width rows).run start).1 ≠ .error (.panic message) := by
  induction rows generalizing start with
  | nil => exact fun panics => by cases panics
  | cons row rows ih =>
      rw [run_writeRows_cons within]
      rcases out.writeLine (lineOf width row) start with ⟨_ | done, next⟩
      · exact fun panics => by cases panics
      · exact ih next

theorem writeRows_of_wide (wide : 65535 < width) (row : String × Tally)
    (rows : List (String × Tally)) (start : Out) :
    (writeRows out width (row :: rows)).run start =
      (.error (.panic "Formatting argument out of range"), start) := by
  have stops : ExceptT.run (writeRow out width row.1 row.2) start =
      (.error (.panic "Formatting argument out of range"), start) := by
    rw [writeRow, formatRow, if_pos wide]
    rfl
  exact run_bind_of_fails stops

end Rows

/-!
## The table of merged texts
-/

section

variable {Out : Type} {quoted : String → String} {texts : List String} {totals : Totals}
  {out : Writer Out} {start : Out}

theorem sourcesOf_keys (merged : mergeTexts quoted texts = .ok totals) :
    SourcesOf texts totals.keys where
  ordered := by
    refine List.Pairwise.imp ?_ Std.ExtTreeMap.ordered_keys
    intro source next ordered
    exact compareOfLessAndEq_eq_lt.mp ordered
  named source := Std.ExtTreeMap.mem_keys.trans (mergeTexts_mem_iff merged source)

theorem tableText_of_merged (merged : mergeTexts quoted texts = .ok totals) :
    tableText texts totals.keys = (table totals).map (lineOf (labelWidth totals)) := by
  have files : totals.keys.map (fun source => rowText (labelWidth totals) source fun slot =>
        min (filedSum source slot texts) 4294967295) =
      totals.toList.map (lineOf (labelWidth totals)) := by
    rw [← Std.ExtTreeMap.map_fst_toList_eq_keys, List.map_map]
    refine List.map_congr_left fun entry member => ?_
    have found := Std.ExtTreeMap.mem_toList_iff_getElem?_eq_some.mp member
    have counts : (fun slot => min (filedSum entry.1 slot texts) 4294967295) =
        fun slot => (entry.2.count slot).value := by
      funext slot
      have counted := mergeTexts_count merged entry.1 slot
      rw [Totals.count, found, Option.getD_some] at counted
      exact counted.symm
    rw [Function.comp_apply, counts, lineOf]
  have total : (fun slot => min (recordedSum slot texts) 4294967295) =
      fun slot => ((Tally.total (tallies totals)).count slot).value :=
    funext fun slot => (total_count_of_merged merged slot).symm
  rw [table, List.map_append, ← files, List.map_singleton, lineOf, ← total]
  rfl

theorem labelWidth_le_iff {bound : Nat} :
    labelWidth totals ≤ bound ↔ ∀ source ∈ totals.keys, source.utf8ByteSize ≤ bound := by
  rw [labelWidth]
  cases widest : (totals.keys.map String.utf8ByteSize).max? with
  | none =>
      rw [List.max?_eq_none_iff, List.map_eq_nil_iff] at widest
      simp [widest]
  | some width =>
      rw [Option.getD_some, List.max?_le_iff widest, List.forall_mem_map]

theorem table_ne_nil (totals : Totals) : ∃ row rows, table totals = row :: rows :=
  List.exists_cons_of_ne_nil (List.append_ne_nil_of_right_ne_nil _ (List.cons_ne_nil _ _))

theorem rowsWritten_iff (merged : mergeTexts quoted texts = .ok totals) :
    RowsWritten totals out start ↔
      (∀ source ∈ totals.keys, source.utf8ByteSize ≤ 65535) ∧
        out.TakesAll (tableText texts totals.keys) start := by
  rw [← labelWidth_le_iff, tableText_of_merged merged, RowsWritten]
  by_cases within : labelWidth totals ≤ 65535
  · simp only [writeRows_eq_ok_iff within, within, true_and, exists_and_left, exists_eq', and_true]
  · obtain ⟨row, rows, split⟩ := table_ne_nil totals
    rw [split, writeRows_of_wide (Nat.lt_of_not_le within)]
    simp [within]

theorem verdict_ne_panic (summary : Tally) (start : Out) (message : String) :
    ((verdict summary).run start).1 ≠ .error (.panic message) := by
  unfold verdict
  split
  · exact fun panics => by cases panics
  · split <;> exact fun panics => by cases panics

theorem verdict_run_snd (summary : Tally) (start : Out) :
    ((verdict summary).run start).2 = start := by
  unfold verdict
  split
  · rfl
  · split <;> rfl

theorem report_run_snd (merged : mergeTexts quoted texts = .ok totals)
    (nonempty : totals.isEmpty = false)
    (within : ∀ source ∈ totals.keys, source.utf8ByteSize ≤ 65535)
    (taken : out.TakesAll (tableText texts totals.keys) start) :
    ((report totals out).run start).2 = out.withLines (tableText texts totals.keys) start := by
  rw [tableText_of_merged merged] at taken ⊢
  have rows := (writeRows_eq_ok_iff (labelWidth_le_iff.mpr within)).mpr ⟨taken, rfl⟩
  rw [report_of_nonempty out nonempty, Printing.run_bind_of_ok rows, verdict_run_snd]

theorem report_of_wide (nonempty : totals.isEmpty = false)
    (wide : ∃ source ∈ totals.keys, 65535 < source.utf8ByteSize) :
    (report totals out).run start =
      (.error (.panic "Formatting argument out of range"), start) := by
  have tooWide : 65535 < labelWidth totals := by
    by_contra within
    obtain ⟨source, member, wide⟩ := wide
    have narrow := labelWidth_le_iff.mp (Nat.le_of_not_lt within) source member
    omega
  obtain ⟨row, rows, split⟩ := table_ne_nil totals
  have stops := @writeRows_of_wide _ out _ tooWide row rows start
  rw [report_of_nonempty out nonempty, split]
  exact run_bind_of_fails stops

theorem report_panics_iff :
    (∃ message, ((report totals out).run start).1 = .error (.panic message)) ↔
      ∃ source ∈ totals.keys, 65535 < source.utf8ByteSize := by
  cases empty : totals.isEmpty with
  | true =>
      have none : totals.keys = [] := by simp [Std.ExtTreeMap.isEmpty_iff.mp empty]
      rw [report_of_isEmpty empty, none]
      simp
  | false =>
      constructor
      · rintro ⟨message, panics⟩
        by_contra narrow
        push Not at narrow
        have within := labelWidth_le_iff.mpr narrow
        rw [report_of_nonempty out empty] at panics
        rcases rows : (writeRows out (labelWidth totals) (table totals)).run start with
          ⟨stop | done, written⟩
        · rw [Printing.run, run_bind_of_fails rows] at panics
          cases panics
          exact writeRows_ne_panic within _ _ message (congrArg Prod.fst rows)
        · rw [Printing.run_bind_of_ok rows] at panics
          exact verdict_ne_panic _ _ message panics
      · intro wide
        rw [report_of_wide empty wide]
        exact ⟨_, rfl⟩

end

section

variable {Out Err : Type} {quoted : String → String}
  {readToString : String → Except String String} {panicHook : String → Err → Err}
  {out : Writer Out} {err : Writer Err} {program : String} {paths : List String}
  {console : Xtask.Console Out Err} {totals : Totals}

theorem main_stdout_of_collected (collected : collect quoted readToString paths = .ok totals) :
    (Xtask.main quoted readToString panicHook out err (program :: "coverage" :: paths)
      console).2.stdout = ((report totals out).run console.stdout).2 := by
  rw [Xtask.main, List.drop_succ_cons, List.drop_zero, Xtask.run, if_pos rfl, collected]
  change _ = (ExceptT.run (report totals out) console.stdout).2
  rcases ExceptT.run (report totals out) console.stdout with ⟨(_ | _) | _, stdout⟩ <;> rfl

theorem main_of_panic (collected : collect quoted readToString paths = .ok totals)
    {message : String}
    (panics : (report totals out).run console.stdout = (.error (.panic message), console.stdout)) :
    Xtask.main quoted readToString panicHook out err (program :: "coverage" :: paths) console =
      (.panicked, ⟨console.stdout, panicHook message console.stderr⟩) := by
  rw [Printing.run] at panics
  rw [Xtask.main, List.drop_succ_cons, List.drop_zero, Xtask.run, if_pos rfl, collected]
  simp only [panics]

end

/-- Whatever the verdict, an output that takes every line gets one row for each
source file a record is under, in order, with the sums of what the records say of it,
and a row for all of them. Where a path is too wide the process panics before it. -/
theorem main_prints_sums {Out Err : Type} (quoted : String → String)
    (readToString : String → Except String String) (panicHook : String → Err → Err)
    (out : Writer Out) (err : Writer Err) (program : String) (console : Xtask.Console Out Err)
    {paths : List String}
    (readable : AllReadable readToString paths)
    (recorded : (textsOf readToString paths).flatMap countRecords ≠ []) :
    ∃ sources, SourcesOf (textsOf readToString paths) sources ∧
      ((∀ source ∈ sources, source.utf8ByteSize ≤ 65535) →
        out.TakesAll (tableText (textsOf readToString paths) sources) console.stdout →
        (Xtask.main quoted readToString panicHook out err (program :: "coverage" :: paths)
            console).2.stdout =
          out.withLines (tableText (textsOf readToString paths) sources) console.stdout) ∧
      ((∃ source ∈ sources, 65535 < source.utf8ByteSize) →
        Xtask.main quoted readToString panicHook out err (program :: "coverage" :: paths) console =
          (.panicked, ⟨console.stdout,
            panicHook "Formatting argument out of range" console.stderr⟩)) := by
  have nonempty : paths ≠ [] := by
    rintro rfl
    exact recorded rfl
  obtain ⟨totals, merged⟩ := exists_merged quoted readable
  have collected := collect_eq_ok_iff.mpr ⟨nonempty, readable, merged⟩
  have filled : totals.isEmpty = false := by
    obtain ⟨record, member⟩ := List.exists_mem_of_ne_nil _ recorded
    obtain ⟨allReadable, -⟩ := (mergeTexts_eq_ok_iff quoted).mp merged
    obtain ⟨source, -, named, -⟩ := CountRecord.readable_iff.mp (allReadable record member)
    have present : source ∈ totals := (mergeTexts_mem_iff merged source).mpr ⟨record, member, named⟩
    refine Std.ExtTreeMap.isEmpty_eq_false_iff.mpr ?_
    rintro rfl
    exact Std.ExtTreeMap.not_mem_empty present
  refine ⟨totals.keys, sourcesOf_keys merged, fun within taken => ?_, fun wide => ?_⟩
  · exact (main_stdout_of_collected collected).trans (report_run_snd merged filled within taken)
  · exact main_of_panic collected (report_of_wide filled wide)

/-- The tracefiles of three runs: one with carriage returns and no branches, and one
that misses a line. -/
def sampleFiles (path : String) : Except String String :=
  if path = "unit.info" then .ok "SF:src/lexer.rs\nLF:12\nLH:12\nBRF:4\nBRH:4\n"
  else if path = "loom.info" then .ok "SF:src/sync.rs\r\nLF:7\r\nLH:7\r\n"
  else if path = "doc.info" then .ok "SF:src/sync.rs\nLF:2\nLH:1\n"
  else .error "No such file or directory (os error 2)"

theorem main_prints_sums_three_files :
    (Xtask.main id sampleFiles (fun _ lines => lines) keepLines keepLines
        ["xtask", "coverage", "unit.info", "loom.info", "doc.info"] ⟨[], []⟩).2.stdout =
      ["src/lexer.rs  lines 12/12  branches 4/4",
        "src/sync.rs   lines 8/9  branches 0/0  MISSING",
        "total         lines 20/21  branches 4/4  MISSING"] := by
  have quiet : ["unit.info", "loom.info", "doc.info"].findSome? (complaint? id sampleFiles) =
      none := by decide +kernel
  have recorded : (textsOf sampleFiles ["unit.info", "loom.info", "doc.info"]).flatMap
      countRecords ≠ [] := by decide +kernel
  obtain ⟨sources, ofTexts, prints, -⟩ :=
    main_prints_sums id sampleFiles (fun _ lines => lines) keepLines keepLines "xtask" ⟨[], []⟩
      (quiet_iff.mp quiet) recorded
  have expected : SourcesOf (textsOf sampleFiles ["unit.info", "loom.info", "doc.info"])
      ["src/lexer.rs", "src/sync.rs"] := by
    refine ⟨by decide +kernel, fun source => ?_⟩
    have named : ((textsOf sampleFiles ["unit.info", "loom.info", "doc.info"]).flatMap
        countRecords).map CountRecord.source =
      List.replicate 4 (some "src/lexer.rs") ++ List.replicate 4 (some "src/sync.rs") := by
      decide +kernel
    rw [← List.mem_map, named]
    simp
  obtain rfl := ofTexts.unique expected
  rw [prints (by decide) (keepLines.takesAll_of_accepts (fun _ _ => rfl) _ _)]
  decide +kernel

end Proofhouse
