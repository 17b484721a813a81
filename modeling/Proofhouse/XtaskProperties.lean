import Proofhouse.CoverageProperties
import Proofhouse.Library.GroupedSums
import Proofhouse.TracefileProperties
import Proofhouse.Xtask

/-!
# What the coverage task reads

The task complains about the first thing it cannot read. Where it can read
everything, its totals are the sums of the four counts over all records.
-/

set_option autoImplicit false

namespace Proofhouse

open Library

/-!
## The first complaint
-/

/-- What is wrong with a record, as the task says it. -/
def CountRecord.complaint? (quoted : String → String) (record : CountRecord) : Option String :=
  match record.source with
  | none => some s!"a {record.slot.tag} record arrives before any source file"
  | some _ =>
      match U32.parse record.value with
      | .ok _ => none
      | .error error =>
          some s!"unreadable {record.slot.tag} count {quoted record.value}: {error.text}"

/-- What is wrong with a tracefile: that it cannot be read, or its first record
that cannot. -/
def complaint? (quoted : String → String) (readToString : String → Except String String)
    (path : String) : Option String :=
  match readToString path with
  | .error error => some s!"{path}: {error}"
  | .ok text => (countRecords text).findSome? (CountRecord.complaint? quoted)

section

variable {quoted : String → String} {readToString : String → Except String String}

theorem CountRecord.complaint?_eq_none_iff {record : CountRecord} :
    record.complaint? quoted = none ↔ record.Readable := by
  rw [readable_iff, complaint?, count?]
  cases record.source with
  | none => simp
  | some path => cases U32.parse record.value <;> simp [Except.toOption]

theorem CountRecord.run_file_of_complaint {record : CountRecord} {message : String}
    (complains : record.complaint? quoted = some message) (totals : Totals) :
    ExceptT.run (record.file quoted) totals = (.error message, totals) := by
  rw [complaint?] at complains
  rw [file, fileRecord]
  cases source : record.source with
  | none =>
      rw [source] at complains
      cases complains
      rfl
  | some path =>
      rw [source] at complains
      cases parsed : U32.parse record.value with
      | ok count => simp [parsed] at complains
      | error error =>
          simp only [parsed, Option.some.injEq] at complains
          subst complains
          rfl

theorem run_forM_file_of_complaint {records : List CountRecord} {message : String}
    (complains : records.findSome? (CountRecord.complaint? quoted) = some message)
    (totals : Totals) :
    ∃ left, ExceptT.run (forM records (CountRecord.file quoted)) totals =
      (.error message, left) := by
  induction records generalizing totals with
  | nil => cases complains
  | cons record records ih =>
      rw [List.forM_cons]
      rw [List.findSome?_cons] at complains
      cases own : record.complaint? quoted with
      | some first =>
          rw [own] at complains
          cases complains
          exact ⟨totals, run_bind_of_fails (record.run_file_of_complaint own totals)⟩
      | none =>
          rw [own] at complains
          have readable := CountRecord.complaint?_eq_none_iff.mp own
          rw [run_bind_of_succeeds (CountRecord.run_file_of_readable quoted readable totals)]
          exact ih complains _

/-- One tracefile after the other, each read into the same map. -/
def readAll (quoted : String → String) (readToString : String → Except String String)
    (paths : List String) : Filling Unit := do
  for path in paths do
    let text ← readText readToString path
    parseLcov quoted text

theorem readAll_cons (path : String) (paths : List String) :
    readAll quoted readToString (path :: paths) =
      (do
        let text ← readText readToString path
        parseLcov quoted text
        readAll quoted readToString paths) := by
  simp [readAll]

theorem run_readAll_of_complaint {paths : List String} {message : String}
    (complains : paths.findSome? (complaint? quoted readToString) = some message)
    (totals : Totals) :
    ∃ left, ExceptT.run (readAll quoted readToString paths) totals = (.error message, left) := by
  induction paths generalizing totals with
  | nil => cases complains
  | cons path paths ih =>
      rw [readAll_cons]
      rw [List.findSome?_cons, complaint?] at complains
      cases reads : readToString path with
      | error error =>
          rw [reads] at complains
          cases complains
          have fails : ExceptT.run (readText readToString path) totals =
              (.error s!"{path}: {error}", totals) := by
            rw [readText, reads]
            rfl
          exact ⟨totals, run_bind_of_fails fails⟩
      | ok text =>
          rw [reads] at complains
          have read : ExceptT.run (readText readToString path) totals = (.ok text, totals) := by
            rw [readText, reads]
            rfl
          rw [run_bind_of_succeeds read, parseLcov_eq_forM]
          cases own : (countRecords text).findSome? (CountRecord.complaint? quoted) with
          | some first =>
              simp only [own, Option.some.injEq] at complains
              subst complains
              obtain ⟨left, fails⟩ := run_forM_file_of_complaint own totals
              exact ⟨left, run_bind_of_fails fails⟩
          | none =>
              simp only [own] at complains
              have readable : ∀ record ∈ countRecords text, record.Readable :=
                fun record member => CountRecord.complaint?_eq_none_iff.mp
                  (List.findSome?_eq_none_iff.mp own record member)
              rw [run_bind_of_succeeds (run_forM_file_of_readable quoted readable totals)]
              exact ih complains _

theorem collect_eq_finish {paths : List String} (nonempty : paths ≠ []) :
    collect quoted readToString paths = (readAll quoted readToString paths).finish := by
  rw [collect, if_neg (by simpa using nonempty)]
  rfl

theorem collect_of_complaint {paths : List String} {message : String}
    (complains : paths.findSome? (complaint? quoted readToString) = some message) :
    collect quoted readToString paths = .error message := by
  have nonempty : paths ≠ [] := by
    rintro rfl
    cases complains
  obtain ⟨left, fails⟩ := run_readAll_of_complaint complains ∅
  rw [collect_eq_finish nonempty, Filling.finish, fails]

/-- The texts of the paths that can be read. -/
def textsOf (readToString : String → Except String String) (paths : List String) :
    List String :=
  paths.filterMap fun path => (readToString path).toOption

theorem complaint?_eq_none_iff {path : String} :
    complaint? quoted readToString path = none ↔
      ∃ text, readToString path = .ok text ∧ ∀ record ∈ countRecords text, record.Readable := by
  rw [complaint?]
  cases readToString path with
  | error error => simp
  | ok text => simp [CountRecord.complaint?_eq_none_iff]

theorem readableTexts_of_quiet {paths : List String}
    (quiet : paths.findSome? (complaint? quoted readToString) = none) :
    ∀ record ∈ (textsOf readToString paths).flatMap countRecords, record.Readable := by
  intro record member
  obtain ⟨text, inTexts, inText⟩ := List.mem_flatMap.mp member
  obtain ⟨path, inPaths, read⟩ := List.mem_filterMap.mp inTexts
  obtain ⟨other, reads, readable⟩ :=
    complaint?_eq_none_iff.mp (List.findSome?_eq_none_iff.mp quiet path inPaths)
  rw [reads] at read
  cases read
  exact readable record inText

theorem collect_of_quiet {paths : List String} (nonempty : paths ≠ [])
    (quiet : paths.findSome? (complaint? quoted readToString) = none) :
    collect quoted readToString paths = mergeTexts quoted (textsOf readToString paths) := by
  let textOf path := (readToString path).toOption.getD ""
  have readable : ∀ path ∈ paths, ∃ text, readToString path = .ok text := by
    intro path member
    obtain ⟨text, reads, -⟩ :=
      complaint?_eq_none_iff.mp (List.findSome?_eq_none_iff.mp quiet path member)
    exact ⟨text, reads⟩
  have reads : ∀ path ∈ paths, readToString path = .ok (textOf path) := by
    intro path member
    obtain ⟨text, reads⟩ := readable path member
    simp only [textOf, reads, Except.toOption, Option.getD_some]
  have same : textsOf readToString paths = paths.map textOf := by
    rw [textsOf, ← List.filterMap_eq_map]
    refine List.filterMap_congr fun path member => ?_
    rw [reads path member]
    rfl
  rw [collect_eq_mergeTexts quoted nonempty reads, same]

/-- The tracefiles can all be read, and every record in them. -/
def AllReadable (readToString : String → Except String String) (paths : List String) : Prop :=
  ∀ path ∈ paths, ∃ text, readToString path = .ok text ∧
    ∀ record ∈ countRecords text, record.Readable

theorem quiet_iff {paths : List String} :
    paths.findSome? (complaint? quoted readToString) = none ↔ AllReadable readToString paths := by
  simp only [List.findSome?_eq_none_iff, complaint?_eq_none_iff, AllReadable]

theorem collect_eq_ok_iff {paths : List String} {totals : Totals} :
    collect quoted readToString paths = .ok totals ↔
      paths ≠ [] ∧ AllReadable readToString paths ∧
        mergeTexts quoted (textsOf readToString paths) = .ok totals := by
  rw [← @quiet_iff quoted]
  constructor
  · intro collected
    have nonempty : paths ≠ [] := by
      rintro rfl
      cases collected
    cases complains : paths.findSome? (complaint? quoted readToString) with
    | some message => cases (collect_of_complaint complains).symm.trans collected
    | none => exact ⟨nonempty, rfl, collect_of_quiet nonempty complains ▸ collected⟩
  · rintro ⟨nonempty, quiet, merged⟩
    rw [collect_of_quiet nonempty quiet, merged]

theorem exists_merged {paths : List String} (quoted : String → String)
    (readable : AllReadable readToString paths) :
    ∃ totals, mergeTexts quoted (textsOf readToString paths) = .ok totals :=
  ⟨_, (mergeTexts_eq_ok_iff quoted).mpr
    ⟨readableTexts_of_quiet (@quiet_iff quoted _ _ |>.mpr readable), rfl⟩⟩

/-- The task complains about the first tracefile that cannot be read or holds a
record that cannot, and of that record. What comes after is not looked at. -/
theorem collect_complains_first (paths : List String) :
    collect quoted readToString paths =
      match paths, paths.findSome? (complaint? quoted readToString) with
      | [], _ => .error s!"name at least one tracefile; {usage}"
      | _ :: _, some message => .error message
      | _ :: _, none => mergeTexts quoted (textsOf readToString paths) := by
  cases paths with
  | nil => rfl
  | cons path paths =>
      cases complains : (path :: paths).findSome? (complaint? quoted readToString) with
      | some message => exact collect_of_complaint complains
      | none => exact collect_of_quiet (List.cons_ne_nil _ _) complains

end

/-!
## Sums over all records
-/

/-- What a record counts for one of the four counts, whatever source it is under. -/
def CountRecord.weight (slot : Slot) (record : CountRecord) : Int :=
  if record.slot = slot then (record.count?.getD U32.zero).value else 0

/-- The exact sum of one count over all records of the texts. -/
def recordedSum (slot : Slot) (texts : List String) : Int :=
  ((texts.flatMap countRecords).map (CountRecord.weight slot)).sum

section

variable {quoted : String → String} {texts : List String} {totals : Totals}

theorem CountRecord.amount_value (path : String) (slot : Slot) (record : CountRecord) :
    (record.amount path slot).value =
      if record.source = some path then record.weight slot else 0 := by
  rw [amount, weight]
  by_cases source : record.source = some path
  · by_cases own : record.slot = slot <;> simp [source, own, U32.zero]
  · simp [source, U32.zero]

theorem filedSum_nonneg (path : String) (slot : Slot) (texts : List String) :
    0 ≤ filedSum path slot texts :=
  List.sum_nonneg (List.forall_mem_map.mpr fun record _ => (record.amount path slot).least_le)

theorem sum_tallies (slot : Slot) (totals : Totals) :
    Tally.sum slot (tallies totals) =
      (totals.keys.map fun path => (Totals.count path slot totals).value).sum := by
  rw [Tally.sum, tallies, ← Std.ExtTreeMap.map_fst_toList_eq_keys, List.map_map, List.map_map]
  refine congrArg List.sum (List.map_congr_left fun entry member => ?_)
  have found : totals[entry.1]? = some entry.2 :=
    Std.ExtTreeMap.mem_toList_iff_getElem?_eq_some.mp member
  simp [Totals.count, found]

/-- Each count of the total is the sum over all records, cut off at the largest
count: a cut in some file leaves the total at that count as well. -/
theorem total_count_of_merged (merged : mergeTexts quoted texts = .ok totals) (slot : Slot) :
    ((Tally.total (tallies totals)).count slot).value =
      min (recordedSum slot texts) U32.max.value := by
  obtain ⟨readable, -⟩ := (mergeTexts_eq_ok_iff quoted).mp merged
  have grouped : ∀ record ∈ texts.flatMap countRecords,
      ∃ path ∈ totals.keys, record.source = some path := by
    intro record member
    obtain ⟨path, -, source, -⟩ := CountRecord.readable_iff.mp (readable record member)
    refine ⟨path, Std.ExtTreeMap.mem_keys.mpr ?_, source⟩
    exact (mergeTexts_mem_iff merged path).mpr ⟨record, member, source⟩
  have counts : (totals.keys.map fun path => (Totals.count path slot totals).value) =
      totals.keys.map fun path => min (filedSum path slot texts) U32.max.value :=
    List.map_congr_left fun path _ => mergeTexts_count merged path slot
  have whole : (totals.keys.map fun path => filedSum path slot texts).sum =
      recordedSum slot texts := by
    simp only [filedSum, CountRecord.amount_value]
    exact sum_groups Std.ExtTreeMap.nodup_keys (CountRecord.weight slot) grouped
  rw [Tally.count_total, sum_tallies, counts, min_sum_min U32.max.least_le, whole]
  exact fun path _ => filedSum_nonneg path slot texts

end

end Proofhouse
