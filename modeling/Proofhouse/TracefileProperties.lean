import Proofhouse.CoverageProperties
import Proofhouse.Tracefiles

/-!
# Merged tracefiles

What the map read from several tracefiles holds, said of the records themselves:
every count is filed under the source file named last before it in its own text,
and the order of the texts does not matter.
-/

set_option autoImplicit false

namespace Proofhouse

open Library

/-!
## The text of a count
-/

namespace U32

/-- The digits of a count, perhaps behind a plus sign. -/
def SpelledBy (count : U32) (text : String) : Prop :=
  ∃ digits, (text.toList = digits ∨ text.toList = '+' :: digits) ∧ DigitRun digits ∧
    count.value = decimalValue digits

theorem le_ofDigitChars (digits : List Char) (start : Nat) :
    start ≤ Nat.ofDigitChars 10 digits start := by
  induction digits generalizing start with
  | nil => exact Nat.le_refl _
  | cons digit digits ih =>
      have grown := ih (10 * start + (digit.toNat - '0'.toNat))
      rw [Nat.ofDigitChars_cons]
      omega

theorem readDigits_eq_ok_iff {digits : List Char} {result count : U32} {start : Nat}
    (same : result.value = start) :
    readDigits result digits = .ok count ↔
      (∀ digit ∈ digits, digit.isDigit = true) ∧
        count.value = Nat.ofDigitChars 10 digits start := by
  induction digits generalizing result start with
  | nil =>
      simp only [readDigits, Except.ok.injEq, List.not_mem_nil, false_implies, implies_true,
        true_and]
      rw [BoundedInteger.ext_iff, same, eq_comm]
      rfl
  | cons digit digits ih =>
      rw [readDigits, List.forall_mem_cons, Nat.ofDigitChars_cons]
      split
      · next isDigit =>
        split
        · next next found =>
          rw [BoundedInteger.ofInt?_eq_some_iff, same] at found
          have goesOn := @ih next (10 * start + (digit.toNat - '0'.toNat)) (by omega)
          rw [goesOn, and_iff_right isDigit]
        · next missing =>
          rw [BoundedInteger.ofInt?_eq_none_iff, same] at missing
          refine iff_of_false (fun failed => by cases failed) fun read => ?_
          -- The number only grows, so what is too large once stays so.
          have grown := le_ofDigitChars digits (10 * start + (digit.toNat - '0'.toNat))
          have upper := count.le_greatest
          omega
      · next other =>
        exact iff_of_false (fun failed => by cases failed) fun read => other read.1.1

theorem parse_eq_ok_iff {text : String} {count : U32} :
    parse text = .ok count ↔ count.SpelledBy text := by
  have digitsOnly : ∀ {digits}, digits ≠ [] → (readDigits zero digits = .ok count ↔
      DigitRun digits ∧ count.value = decimalValue digits) := by
    intro digits nonempty
    rw [@readDigits_eq_ok_iff digits zero count 0 rfl, DigitRun, and_iff_right nonempty,
      decimalValue]
  unfold parse
  split
  · next empty =>
    refine iff_of_false (fun failed => by cases failed) ?_
    rintro ⟨digits, same | same, ⟨nonempty, -⟩, -⟩
    · exact nonempty (same.symm.trans empty)
    · cases same.symm.trans empty
  · next single =>
    refine iff_of_false (fun failed => by cases failed) ?_
    rintro ⟨digits, same | same, ⟨nonempty, allDigits⟩, -⟩
    · exact absurd (allDigits '+' (by simp [← same, single])) (by decide)
    · exact nonempty (List.cons.inj (same.symm.trans single)).2
  · next digits nonempty signed =>
    rw [digitsOnly nonempty]
    constructor
    · intro read
      exact ⟨digits, .inr signed, read⟩
    · rintro ⟨others, same | same, read⟩
      · exact absurd (read.1.2 '+' (by simp [← same, signed])) (by decide)
      · obtain ⟨-, rfl⟩ := List.cons.inj (same.symm.trans signed)
        exact read
  · next nonempty _ unsigned =>
    rw [digitsOnly nonempty]
    constructor
    · intro read
      exact ⟨_, .inl rfl, read⟩
    · rintro ⟨others, same | same, read⟩
      · exact same ▸ read
      · exact absurd same (unsigned others)

end U32

/-!
## Tags
-/

namespace Slot

def tag : Slot → String
  | .linesFound => "LF"
  | .linesHit => "LH"
  | .branchesFound => "BRF"
  | .branchesHit => "BRH"

/-- The count with this tag. -/
def tagged? (tag : String) : Option Slot :=
  [linesFound, linesHit, branchesFound, branchesHit].find? fun slot => slot.tag = tag

theorem tagged?_eq_some_iff {tag : String} {slot : Slot} :
    tagged? tag = some slot ↔ slot.tag = tag := by
  constructor
  · intro found
    rw [tagged?] at found
    simpa using List.find?_some found
  · rintro rfl
    cases slot <;> rfl

theorem ofTag?_eq_some_iff {tag : String} {slot : Slot} :
    ofTag? tag = some slot ↔ slot.tag = tag := by
  constructor
  · intro found
    unfold ofTag? at found
    split at found <;> cases found <;> rfl
  · rintro rfl
    cases slot <;> rfl

theorem ofTag?_eq_tagged? (tag : String) : ofTag? tag = tagged? tag :=
  Option.ext fun _ => ofTag?_eq_some_iff.trans tagged?_eq_some_iff.symm

end Slot

/-!
## Records of a text
-/

/-- The tag and the value of each line that has both. -/
def taggedLines (text : String) : List (String × String) :=
  (lines text).filterMap (splitOnce ':')

/-- The source file that the last `SF` line names. -/
def latestSource (seen : List (String × String)) : Option String :=
  ((seen.filter fun line => line.1 = "SF").getLast?).map Prod.snd

/-- A line with one of the four tags, and the source file named last before it. -/
structure CountRecord where
  source : Option String
  slot : Slot
  value : String

def countRecords (text : String) : List CountRecord :=
  let tagged := taggedLines text
  tagged.zipIdx.filterMap fun entry =>
    (Slot.tagged? entry.1.1).map fun slot =>
      ⟨latestSource (tagged.take entry.2), slot, entry.1.2⟩

theorem latestSource_concat_source (seen : List (String × String)) (value : String) :
    latestSource (seen ++ [("SF", value)]) = some value := by
  simp [latestSource]

theorem latestSource_concat_other {seen : List (String × String)} {tag value : String}
    (other : tag ≠ "SF") : latestSource (seen ++ [(tag, value)]) = latestSource seen := by
  simp [latestSource, other]

/-!
## The loop of one text
-/

section

variable (quoted : String → String)

def CountRecord.file (record : CountRecord) : Filling Unit :=
  fileRecord quoted record.source record.slot.tag record.slot record.value

/-- The records among the lines still unread, behind those already seen. -/
private def recordsFrom (seen rest : List (String × String)) : List CountRecord :=
  (rest.zipIdx seen.length).filterMap fun entry =>
    (Slot.tagged? entry.1.1).map fun slot =>
      ⟨latestSource ((seen ++ rest).take entry.2), slot, entry.1.2⟩

private theorem recordsFrom_cons (seen rest : List (String × String)) (line : String × String) :
    recordsFrom seen (line :: rest) =
      ((Slot.tagged? line.1).map fun slot => ⟨latestSource seen, slot, line.2⟩).toList ++
        recordsFrom (seen ++ [line]) rest := by
  have front : (seen ++ line :: rest).take seen.length = seen := List.take_left' rfl
  simp only [recordsFrom, List.zipIdx_cons, List.filterMap_cons, front, List.length_append,
    List.length_singleton, List.append_assoc, List.singleton_append]
  cases Slot.tagged? line.1 <;> rfl

/-- The loop files the records of the text in order, and remembers the source
file named last. -/
private theorem foldlM_parseLine (seen : List (String × String)) (text : List String) :
    text.foldlM (parseLine quoted) (latestSource seen) =
      (do
        forM (recordsFrom seen (text.filterMap (splitOnce ':'))) (CountRecord.file quoted)
        return latestSource (seen ++ text.filterMap (splitOnce ':'))) := by
  induction text generalizing seen with
  | nil => simp [recordsFrom]
  | cons line text ih =>
      rw [List.foldlM_cons, parseLine]
      cases tagged : splitOnce ':' line with
      | none => simp [ih, tagged]
      | some record =>
          obtain ⟨tag, value⟩ := record
          have goesOn := ih (seen ++ [(tag, value)])
          rw [List.filterMap_cons_some tagged, recordsFrom_cons, List.append_cons]
          by_cases names : tag = "SF"
          · subst names
            rw [latestSource_concat_source] at goesOn
            simp [goesOn, show Slot.tagged? "SF" = none from rfl]
          · rw [latestSource_concat_other names] at goesOn
            cases found : Slot.tagged? tag with
            | none => simp [names, Slot.ofTag?_eq_tagged?, found, goesOn]
            | some slot =>
                have sameTag := Slot.tagged?_eq_some_iff.mp found
                simp [names, Slot.ofTag?_eq_tagged?, found, goesOn, CountRecord.file, sameTag]

theorem parseLcov_eq_forM (text : String) :
    parseLcov quoted text = forM (countRecords text) (CountRecord.file quoted) := by
  have loop := foldlM_parseLine quoted [] (lines text)
  change (lines text).foldlM (parseLine quoted) none = _ at loop
  rw [parseLcov, loop, bind_assoc]
  simp only [pure_bind]
  exact bind_pure_unit

end

/-!
## Filing one record after the other
-/

namespace CountRecord

def count? (record : CountRecord) : Option U32 :=
  (U32.parse record.value).toOption

/-- A record with a source file in front of it, and a count for its value. -/
def Readable (record : CountRecord) : Prop :=
  record.source ≠ none ∧ ∃ count : U32, count.SpelledBy record.value

/-- What a readable record makes of the totals. -/
def into (record : CountRecord) (totals : Totals) : Totals :=
  match record.source, record.count? with
  | some path, some count => fileCount path record.slot count totals
  | _, _ => totals

/-- What a record adds to one count of one path. -/
def amount (path : String) (slot : Slot) (record : CountRecord) : U32 :=
  if record.source = some path ∧ record.slot = slot then record.count?.getD U32.zero
  else U32.zero

theorem count?_eq_some_iff {record : CountRecord} {count : U32} :
    record.count? = some count ↔ count.SpelledBy record.value := by
  rw [← U32.parse_eq_ok_iff, count?]
  cases U32.parse record.value <;> simp [Except.toOption]

theorem readable_iff {record : CountRecord} :
    record.Readable ↔
      ∃ path count, record.source = some path ∧ record.count? = some count := by
  simp only [Readable, ← count?_eq_some_iff, Option.ne_none_iff_exists', exists_and_left,
    exists_and_right]

variable (quoted : String → String)

theorem run_file_of_readable {record : CountRecord} (readable : record.Readable)
    (totals : Totals) :
    ExceptT.run (record.file quoted) totals = (.ok (), record.into totals) := by
  obtain ⟨path, count, source, counted⟩ := readable_iff.mp readable
  have parsed := U32.parse_eq_ok_iff.mpr (count?_eq_some_iff.mp counted)
  simp only [file, fileRecord, into, source, counted, parsed]
  rfl

theorem run_file_of_unreadable {record : CountRecord} (unreadable : ¬record.Readable)
    (totals : Totals) :
    ∃ message, ExceptT.run (record.file quoted) totals = (.error message, totals) := by
  cases source : record.source with
  | none =>
      simp only [file, fileRecord, source]
      exact ⟨_, rfl⟩
  | some path =>
      cases parsed : U32.parse record.value with
      | error error =>
          simp only [file, fileRecord, source, parsed]
          exact ⟨_, rfl⟩
      | ok count =>
          have counted := count?_eq_some_iff.mpr (U32.parse_eq_ok_iff.mp parsed)
          exact absurd (readable_iff.mpr ⟨path, count, source, counted⟩) unreadable

end CountRecord

section

variable (quoted : String → String)

theorem run_forM_file_of_readable {records : List CountRecord}
    (readable : ∀ record ∈ records, record.Readable) (totals : Totals) :
    ExceptT.run (forM records (CountRecord.file quoted)) totals =
      (.ok (), records.foldl (fun totals record => record.into totals) totals) := by
  induction records generalizing totals with
  | nil => rfl
  | cons record records ih =>
      obtain ⟨first, others⟩ := List.forall_mem_cons.mp readable
      have filed := CountRecord.run_file_of_readable quoted first totals
      rw [List.forM_cons, run_bind_of_succeeds filed]
      exact ih others _

theorem run_forM_file_of_unreadable {records : List CountRecord}
    (unreadable : ¬∀ record ∈ records, record.Readable) (totals : Totals) :
    ∃ message left, ExceptT.run (forM records (CountRecord.file quoted)) totals =
      (.error message, left) := by
  induction records generalizing totals with
  | nil => exact absurd (fun record member => by cases member) unreadable
  | cons record records ih =>
      rw [List.forM_cons]
      by_cases first : record.Readable
      · have others : ¬∀ record ∈ records, record.Readable :=
          fun all => unreadable (List.forall_mem_cons.mpr ⟨first, all⟩)
        rw [run_bind_of_succeeds (CountRecord.run_file_of_readable quoted first totals)]
        exact ih others _
      · obtain ⟨message, failed⟩ := CountRecord.run_file_of_unreadable quoted first totals
        exact ⟨message, totals, run_bind_of_fails failed⟩

/-- The tracefiles with these texts, merged one after the other. -/
def mergeTexts (texts : List String) : Except String Totals :=
  Filling.finish (forM texts (parseLcov quoted))

theorem forM_parseLcov (texts : List String) :
    forM texts (parseLcov quoted) =
      forM (texts.flatMap countRecords) (CountRecord.file quoted) := by
  induction texts with
  | nil => rfl
  | cons text texts ih =>
      rw [List.forM_cons, ih, parseLcov_eq_forM, List.flatMap_cons, List.forM_append]

theorem mergeTexts_eq_ok_iff {texts : List String} {totals : Totals} :
    mergeTexts quoted texts = .ok totals ↔
      (∀ record ∈ texts.flatMap countRecords, record.Readable) ∧
        totals = (texts.flatMap countRecords).foldl
          (fun totals record => record.into totals) ∅ := by
  rw [mergeTexts, forM_parseLcov, Filling.finish]
  by_cases readable : ∀ record ∈ texts.flatMap countRecords, record.Readable
  · rw [run_forM_file_of_readable quoted readable]
    rw [Except.ok.injEq, and_iff_right readable]
    exact eq_comm
  · obtain ⟨message, left, failed⟩ := run_forM_file_of_unreadable quoted readable ∅
    rw [failed]
    exact iff_of_false (fun succeeded => by cases succeeded) fun both => readable both.1

/-- What `collect` does once every file has been read. -/
theorem collect_eq_mergeTexts {readToString : String → Except String String}
    {textOf : String → String} {paths : List String} (nonempty : paths ≠ [])
    (reads : ∀ path ∈ paths, readToString path = .ok (textOf path)) :
    collect quoted readToString paths = mergeTexts quoted (paths.map textOf) := by
  have loop : ∀ {rest : List String}, (∀ path ∈ rest, readToString path = .ok (textOf path)) →
      (do
        for path in rest do
          let text ← readText readToString path
          parseLcov quoted text : Filling Unit) =
        forM (rest.map textOf) (parseLcov quoted) := by
    intro rest reads
    induction rest with
    | nil => simp
    | cons path rest ih =>
        obtain ⟨first, others⟩ := List.forall_mem_cons.mp reads
        rw [List.map_cons, List.forM_cons, ← ih others]
        simp [readText, first]
  rw [collect, if_neg (by simpa using nonempty), loop reads, mergeTexts]

end

/-!
## What the map holds
-/

theorem Tally.count_add (slot other : Slot) (count : U32) (tally : Tally) :
    (tally.add slot count).count other =
      if slot = other then (tally.count other).saturatingAdd count else tally.count other := by
  cases slot <;> cases other <;> rfl

theorem Tally.ext_count {tally other : Tally} (same : ∀ slot, tally.count slot = other.count slot) :
    tally = other :=
  Tally.ext (same .linesFound) (same .linesHit) (same .branchesFound) (same .branchesHit)

/-- One count of one path, zero where the path has no entry. -/
def Totals.count (path : String) (slot : Slot) (totals : Totals) : U32 :=
  (totals[path]?.getD default).count slot

theorem U32.saturatingAdd_zero (count : U32) : count.saturatingAdd zero = count :=
  count.saturatingAdd_of_value_eq_zero rfl

theorem count_into (path : String) (slot : Slot) (record : CountRecord) (totals : Totals) :
    Totals.count path slot (record.into totals) =
      (Totals.count path slot totals).saturatingAdd (record.amount path slot) := by
  cases named : record.source with
  | none => simp [CountRecord.into, CountRecord.amount, named, U32.saturatingAdd_zero]
  | some source =>
      cases counted : record.count? with
      | none => simp [CountRecord.into, CountRecord.amount, counted, U32.saturatingAdd_zero]
      | some count =>
          simp only [CountRecord.into, CountRecord.amount, named, counted, fileCount,
            Totals.count, Std.ExtTreeMap.getElem?_insert, Std.compare_eq_iff_eq,
            Option.some.injEq]
          by_cases same : source = path
          · subst same
            rw [if_pos rfl, Option.getD_some, Tally.count_add]
            by_cases sameSlot : record.slot = slot
            · simp [sameSlot]
            · simp [sameSlot, U32.saturatingAdd_zero]
          · simp [same, U32.saturatingAdd_zero]

theorem count_foldl_into (path : String) (slot : Slot) (records : List CountRecord)
    (totals : Totals) :
    Totals.count path slot (records.foldl (fun totals record => record.into totals) totals) =
      (records.map (CountRecord.amount path slot)).foldl BoundedInteger.saturatingAdd
        (Totals.count path slot totals) := by
  induction records generalizing totals with
  | nil => rfl
  | cons record records ih =>
      rw [List.foldl_cons, ih, count_into, List.map_cons, List.foldl_cons]

theorem mem_into {path : String} {record : CountRecord} (readable : record.Readable)
    (totals : Totals) :
    path ∈ record.into totals ↔ record.source = some path ∨ path ∈ totals := by
  obtain ⟨source, count, named, counted⟩ := CountRecord.readable_iff.mp readable
  simp [CountRecord.into, named, counted, fileCount]

theorem mem_foldl_into {path : String} {records : List CountRecord}
    (readable : ∀ record ∈ records, record.Readable) (totals : Totals) :
    path ∈ records.foldl (fun totals record => record.into totals) totals ↔
      path ∈ totals ∨ ∃ record ∈ records, record.source = some path := by
  induction records generalizing totals with
  | nil => simp
  | cons record records ih =>
      obtain ⟨first, others⟩ := List.forall_mem_cons.mp readable
      rw [List.foldl_cons, ih others, mem_into first, List.exists_mem_cons_iff]
      exact or_assoc.trans or_left_comm

/-- The exact sum of what the texts file under one path for one count. -/
def filedSum (path : String) (slot : Slot) (texts : List String) : Int :=
  ((texts.flatMap countRecords).map fun record => (record.amount path slot).value).sum

section

variable {quoted : String → String} {texts : List String} {totals : Totals}

theorem mergeTexts_mem_iff (merged : mergeTexts quoted texts = .ok totals) (path : String) :
    path ∈ totals ↔ ∃ record ∈ texts.flatMap countRecords, record.source = some path := by
  obtain ⟨readable, rfl⟩ := (mergeTexts_eq_ok_iff quoted).mp merged
  simp [mem_foldl_into readable]

theorem mergeTexts_count (merged : mergeTexts quoted texts = .ok totals) (path : String)
    (slot : Slot) :
    (Totals.count path slot totals).value = min (filedSum path slot texts) U32.max.value := by
  obtain ⟨-, rfl⟩ := (mergeTexts_eq_ok_iff quoted).mp merged
  have empty : Totals.count path slot ∅ = U32.zero := by simp [Totals.count, Tally.count_default]
  rw [count_foldl_into, empty, BoundedInteger.foldl_saturatingAdd_value, List.map_map]
  simp only [U32.zero, U32.max, filedSum, Int.zero_add, Function.comp_def]

private theorem exists_record_iff {holds : CountRecord → Prop} :
    (∃ record ∈ texts.flatMap countRecords, holds record) ↔
      ∃ text ∈ texts, ∃ record ∈ countRecords text, holds record := by
  constructor
  · rintro ⟨record, member, found⟩
    obtain ⟨text, inTexts, inText⟩ := List.mem_flatMap.mp member
    exact ⟨text, inTexts, record, inText, found⟩
  · rintro ⟨text, inTexts, record, inText, found⟩
    exact ⟨record, List.mem_flatMap.mpr ⟨text, inTexts, inText⟩, found⟩

theorem mergeTexts_fails_iff :
    (∃ message, mergeTexts quoted texts = .error message) ↔
      ∃ text ∈ texts, ∃ record ∈ countRecords text, ¬record.Readable := by
  have readable : (∃ totals, mergeTexts quoted texts = .ok totals) ↔
      ∀ record ∈ texts.flatMap countRecords, record.Readable := by
    simp [mergeTexts_eq_ok_iff]
  have exactlyOne : (∃ message, mergeTexts quoted texts = .error message) ↔
      ¬∃ totals, mergeTexts quoted texts = .ok totals := by
    cases mergeTexts quoted texts <;> simp
  rw [exactlyOne, readable, ← exists_record_iff]
  push Not
  rfl

theorem amounts_perm {others : List String} (perm : texts.Perm others) (path : String)
    (slot : Slot) : filedSum path slot texts = filedSum path slot others :=
  ((perm.flatMap_right countRecords).map _).sum_eq

/-- Two maps with the same paths and the same counts are one. -/
theorem Totals.ext_count {totals other : Totals} (paths : ∀ path, path ∈ totals ↔ path ∈ other)
    (counts : ∀ path slot, Totals.count path slot totals = Totals.count path slot other) :
    totals = other := by
  refine Std.ExtTreeMap.ext_getElem? fun path => ?_
  have counted := counts path
  have member := paths path
  simp only [Totals.count] at counted
  rw [Std.ExtTreeMap.mem_iff_isSome_getElem?, Std.ExtTreeMap.mem_iff_isSome_getElem?] at member
  cases found : totals[path]? with
  | none =>
      cases again : other[path]? with
      | none => rfl
      | some tally => simp [found, again] at member
  | some tally =>
      cases again : other[path]? with
      | none => simp [found, again] at member
      | some tally =>
          rw [found, again] at counted
          exact congrArg some (Tally.ext_count counted)

theorem mergeTexts_perm {others : List String} (perm : texts.Perm others)
    (merged : mergeTexts quoted texts = .ok totals) : mergeTexts quoted others = .ok totals := by
  have sameRecords := perm.flatMap_right countRecords
  obtain ⟨readable, -⟩ := (mergeTexts_eq_ok_iff quoted).mp merged
  have readableOthers : ∀ record ∈ others.flatMap countRecords, record.Readable :=
    fun record member => readable record (sameRecords.mem_iff.mpr member)
  have remerged := (mergeTexts_eq_ok_iff quoted).mpr ⟨readableOthers, rfl⟩
  rw [remerged]
  refine congrArg Except.ok (Totals.ext_count (fun path => ?_) fun path slot => ?_)
  · rw [mergeTexts_mem_iff remerged, mergeTexts_mem_iff merged]
    simp only [sameRecords.mem_iff]
  · apply BoundedInteger.ext
    rw [mergeTexts_count remerged, mergeTexts_count merged, amounts_perm perm]

end

/-- Merging files the saturated sum of every count under its path, fails just
where a record cannot be read, and does not depend on the order of the texts. -/
theorem mergeTexts_saturating_sums (quoted : String → String) (texts : List String) :
    ((∃ message, mergeTexts quoted texts = .error message) ↔
      ∃ text ∈ texts, ∃ record ∈ countRecords text,
        record.source = none ∨ ¬∃ count : U32, count.SpelledBy record.value) ∧
    (∀ totals, mergeTexts quoted texts = .ok totals →
      (∀ path, path ∈ totals ↔
        ∃ text ∈ texts, ∃ record ∈ countRecords text, record.source = some path) ∧
      ∀ path tally, totals[path]? = some tally → ∀ slot,
        (tally.count slot).value = min (filedSum path slot texts) 4294967295) ∧
    ∀ others, texts.Perm others → ∀ totals,
      mergeTexts quoted texts = .ok totals ↔ mergeTexts quoted others = .ok totals := by
  refine ⟨?_, fun totals merged => ⟨fun path => ?_, fun path tally found slot => ?_⟩,
    fun others perm totals => ⟨mergeTexts_perm perm, mergeTexts_perm perm.symm⟩⟩
  · rw [mergeTexts_fails_iff]
    simp only [CountRecord.Readable, not_and_or, not_not, ne_eq]
  · rw [mergeTexts_mem_iff merged, exists_record_iff]
  · have counted := mergeTexts_count merged path slot
    rwa [Totals.count, found, Option.getD_some] at counted

/-- The four counts of one file in two texts, both line counts past the largest. -/
theorem mergeTexts_saturating_sums_past_max :
    ∃ totals tally,
      mergeTexts id ["SF:a\nLF:4294967295\nLH:4294967294\nBRF:7\nBRH:3\n",
        "SF:b\nLH:1\nSF:a\nLF:2\nLH:2\nBRF:5\nBRH:6\n"] = .ok totals ∧
      totals["a"]? = some tally ∧
      tally.linesFound.value = 4294967295 ∧ tally.linesHit.value = 4294967295 ∧
      tally.branchesFound.value = 12 ∧ tally.branchesHit.value = 9 := by
  have saturates := mergeTexts_saturating_sums id
    ["SF:a\nLF:4294967295\nLH:4294967294\nBRF:7\nBRH:3\n",
      "SF:b\nLH:1\nSF:a\nLF:2\nLH:2\nBRF:5\nBRH:6\n"]
  have merges : (mergeTexts id ["SF:a\nLF:4294967295\nLH:4294967294\nBRF:7\nBRH:3\n",
      "SF:b\nLH:1\nSF:a\nLF:2\nLH:2\nBRF:5\nBRH:6\n"]).isOk = true := by decide +kernel
  generalize texts : ["SF:a\nLF:4294967295\nLH:4294967294\nBRF:7\nBRH:3\n",
    "SF:b\nLH:1\nSF:a\nLF:2\nLH:2\nBRF:5\nBRH:6\n"] = both at saturates merges ⊢
  obtain ⟨-, holds, -⟩ := saturates
  cases merged : mergeTexts id both with
  | error message =>
      rw [merged] at merges
      cases merges
  | ok totals =>
      obtain ⟨paths, counts⟩ := holds totals merged
      have member : "a" ∈ totals := (paths "a").mpr (by subst texts; decide +kernel)
      obtain ⟨tally, found⟩ := Option.isSome_iff_exists.mp
        (Std.ExtTreeMap.mem_iff_isSome_getElem?.mp member)
      have counted := counts "a" tally found
      subst texts
      refine ⟨totals, tally, rfl, found, (counted .linesFound).trans ?_,
        (counted .linesHit).trans ?_, (counted .branchesFound).trans ?_,
        (counted .branchesHit).trans ?_⟩ <;> decide +kernel

end Proofhouse
