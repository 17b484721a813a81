import Proofhouse.Coverage
import Proofhouse.Library.SaturatingSum

/-!
# Properties of the coverage gate

What the saturated total says of the files it was added from, and when the gate
passes.
-/

set_option autoImplicit false

namespace Proofhouse

open Library

/-!
## Work that may fail
-/

section

variable {ε σ α β : Type} {first : ExceptT ε (StateM σ) α}
  {next : α → ExceptT ε (StateM σ) β} {start middle : σ}

theorem run_bind :
    ExceptT.run (first >>= next) start =
      match ExceptT.run first start with
      | (.ok value, middle) => ExceptT.run (next value) middle
      | (.error error, middle) => (.error error, middle) := by
  change (match ExceptT.run first start with
    | (result, state) => ExceptT.bindCont next result state) = _
  rcases ExceptT.run first start with ⟨_ | _, middle⟩ <;> rfl

theorem run_bind_of_succeeds {value : α}
    (succeeded : ExceptT.run first start = (.ok value, middle)) :
    ExceptT.run (first >>= next) start = ExceptT.run (next value) middle := by
  rw [run_bind, succeeded]

theorem run_bind_of_fails {error : ε}
    (failed : ExceptT.run first start = (.error error, middle)) :
    ExceptT.run (first >>= next) start = (.error error, middle) := by
  rw [run_bind, failed]

end

/-!
## Totals of several tallies
-/

namespace Tally

def count (slot : Slot) (tally : Tally) : U32 :=
  match slot with
  | .linesFound => tally.linesFound
  | .linesHit => tally.linesHit
  | .branchesFound => tally.branchesFound
  | .branchesHit => tally.branchesHit

def total (tallies : List Tally) : Tally :=
  tallies.foldl absorb default

def sum (slot : Slot) (tallies : List Tally) : Int :=
  (tallies.map fun tally => (tally.count slot).value).sum

/-- Nothing is counted as reached that was not counted as instrumented. -/
structure Bounded (tally : Tally) : Prop where
  lines : tally.linesHit.value ≤ tally.linesFound.value
  branches : tally.branchesHit.value ≤ tally.branchesFound.value

instance (tally : Tally) : Decidable tally.Bounded :=
  decidable_of_iff
    (tally.linesHit.value ≤ tally.linesFound.value ∧
      tally.branchesHit.value ≤ tally.branchesFound.value)
    ⟨fun ⟨lines, branches⟩ => ⟨lines, branches⟩, fun ⟨lines, branches⟩ => ⟨lines, branches⟩⟩

theorem count_absorb (slot : Slot) (tally other : Tally) :
    (tally.absorb other).count slot = (tally.count slot).saturatingAdd (other.count slot) := by
  cases slot <;> rfl

theorem count_default (slot : Slot) : (default : Tally).count slot = U32.zero := by
  cases slot <;> rfl

theorem count_foldl_absorb (slot : Slot) (start : Tally) (tallies : List Tally) :
    (tallies.foldl absorb start).count slot =
      (tallies.map (count slot)).foldl BoundedInteger.saturatingAdd (start.count slot) := by
  rw [List.foldl_map]
  exact (List.foldl_hom (count slot) fun tally other => (count_absorb slot tally other).symm).symm

/-- Each count of the total is the exact sum, cut off at the largest value a
count can hold. -/
theorem count_total (slot : Slot) (tallies : List Tally) :
    ((total tallies).count slot).value = min (sum slot tallies) U32.max.value := by
  rw [total, count_foldl_absorb, count_default, BoundedInteger.foldl_saturatingAdd_value,
    List.map_map]
  simp only [U32.zero, U32.max, sum, Int.zero_add, Function.comp_def]

theorem isComplete_iff (tally : Tally) :
    tally.isComplete = true ↔
      tally.linesHit.value = tally.linesFound.value ∧
        tally.branchesHit.value = tally.branchesFound.value := by
  simp [isComplete, BoundedInteger.ext_iff]

theorem count_total_eq_iff (hit found : Slot) {tallies : List Tally}
    (within : ∀ tally ∈ tallies, (tally.count hit).value ≤ (tally.count found).value) :
    ((total tallies).count hit).value = ((total tallies).count found).value ↔
      (∀ tally ∈ tallies, (tally.count hit).value = (tally.count found).value) ∨
        U32.max.value ≤ sum hit tallies := by
  rw [count_total, count_total]
  exact min_sum_eq_min_sum_iff within U32.max.value

theorem count_total_eq_zero_iff (slot : Slot) (tallies : List Tally) :
    (total tallies).count slot = U32.zero ↔
      ¬ ∃ tally ∈ tallies, 0 < (tally.count slot).value := by
  have positive : 0 < sum slot tallies ↔ ∃ tally ∈ tallies, 0 < (tally.count slot).value :=
    sum_pos_iff_of_nonneg fun tally _ => (tally.count slot).least_le
  have lower := ((total tallies).count slot).least_le
  have cut := count_total slot tallies
  rw [← positive, BoundedInteger.ext_iff]
  simp only [U32.zero, U32.max] at cut ⊢
  omega

end Tally

/-!
## The table
-/

section

variable {Out : Type}

namespace Printing

def run (printing : Printing Out Unit) (start : Out) : Except Stop Unit × Out :=
  ExceptT.run printing start

theorem run_bind_of_ok {first second : Printing Out Unit} {start middle : Out}
    (succeeded : first.run start = (.ok (), middle)) :
    Printing.run (do first; second) start = second.run middle :=
  run_bind_of_succeeds succeeded

end Printing

def writeRows (out : Writer Out) (width : Nat) : List (String × Tally) → Printing Out Unit
  | [] => pure ()
  | (label, tally) :: rows => do
    writeRow out width label tally
    writeRows out width rows

theorem writeRows_append (out : Writer Out) (width : Nat) (front back : List (String × Tally)) :
    writeRows out width (front ++ back) =
      (do writeRows out width front; writeRows out width back) := by
  induction front with
  | nil => simp [writeRows]
  | cons row front ih => simp [writeRows, ih]

theorem forIn_rows (out : Writer Out) (width : Nat) (rows : List (String × Tally))
    (start : Tally) :
    (forIn rows start fun row summary => do
      writeRow out width row.1 row.2
      pure (ForInStep.yield (summary.absorb row.2))) =
      (do writeRows out width rows
          pure ((rows.map Prod.snd).foldl Tally.absorb start) : Printing Out Tally) := by
  induction rows generalizing start with
  | nil => simp [writeRows]
  | cons row rows ih =>
    rw [List.forIn_cons]
    simp only [bind_assoc, pure_bind, ih, writeRows, List.map_cons, List.foldl_cons]

def tallies (totals : Totals) : List Tally :=
  totals.toList.map Prod.snd

theorem tallies_eq_nil_iff {totals : Totals} :
    tallies totals = [] ↔ totals.isEmpty = true := by
  simp [tallies, Std.ExtTreeMap.isEmpty_iff]

theorem isEmpty_eq_false_of_mem {totals : Totals} {tally : Tally}
    (member : tally ∈ tallies totals) : totals.isEmpty = false := by
  rcases empty : totals.isEmpty with _ | _
  · rfl
  · rw [tallies_eq_nil_iff.mpr empty] at member
    cases member

def table (totals : Totals) : List (String × Tally) :=
  totals.toList ++ [("total", Tally.total (tallies totals))]

def verdict (summary : Tally) : Printing Out Unit :=
  if summary.branchesFound = U32.zero then
    throw (.error "the records carry no branches at all")
  else if summary.isComplete then
    pure ()
  else
    throw (.error "the total leaves a line or a branch unreached")

theorem report_of_nonempty {totals : Totals} (out : Writer Out)
    (nonempty : totals.isEmpty = false) :
    report totals out =
      (do writeRows out (labelWidth totals) (table totals)
          verdict (Tally.total (tallies totals))) := by
  unfold report
  simp only [nonempty, Bool.false_eq_true, if_false]
  rw [Std.ExtTreeMap.forIn_eq_forIn_toList, forIn_rows, table, writeRows_append]
  simp only [bind_assoc, pure_bind, writeRows, Tally.total, tallies, verdict]
  congr 2

theorem verdict_run_eq_ok_iff (summary : Tally) (start : Out) :
    ((verdict summary).run start).1 = .ok () ↔
      summary.branchesFound ≠ U32.zero ∧ summary.isComplete = true := by
  unfold verdict
  split
  · rename_i branchless
    exact iff_of_false (fun succeeded => nomatch succeeded) fun both => both.1 branchless
  · rename_i branches
    split
    · rename_i complete
      exact iff_of_true rfl ⟨branches, complete⟩
    · rename_i incomplete
      exact iff_of_false (fun succeeded => nomatch succeeded) fun both => incomplete both.2

/-- Every row of the table can be written, one after the other, from here. -/
def RowsWritten (totals : Totals) (out : Writer Out) (start : Out) : Prop :=
  ∃ written, (writeRows out (labelWidth totals) (table totals)).run start = (.ok (), written)

end

/-!
## When the gate passes
-/

/-- What passing should mean: some file has an instrumented branch, and every
single file was reached in full. -/
structure FullyCovered (totals : Totals) : Prop where
  nonempty : totals.isEmpty = false
  branch : ∃ tally ∈ tallies totals, 0 < tally.branchesFound.value
  complete : ∀ tally ∈ tallies totals,
    tally.linesHit = tally.linesFound ∧ tally.branchesHit = tally.branchesFound

/-- The total shows these two counts as equal: they agree in every file, or the
hits alone add up to the largest value a count can hold. -/
def ShownCovered (hit found : Slot) (tallies : List Tally) : Prop :=
  (∀ tally ∈ tallies, (tally.count hit).value = (tally.count found).value) ∨
    U32.max.value ≤ Tally.sum hit tallies

/-- Some file falls short, and the total cannot show it. -/
structure ShortfallHidden (totals : Totals) : Prop where
  shortfall : ∃ tally ∈ tallies totals,
    ¬(tally.linesHit = tally.linesFound ∧ tally.branchesHit = tally.branchesFound)
  branch : ∃ tally ∈ tallies totals, 0 < tally.branchesFound.value
  lines : ShownCovered .linesHit .linesFound (tallies totals)
  branches : ShownCovered .branchesHit .branchesFound (tallies totals)

section

variable {Out : Type} {totals : Totals} {out : Writer Out} {start : Out}

theorem report_of_isEmpty (empty : totals.isEmpty = true) :
    ((report totals out).run start).1 =
      .error (.error "the tracefiles carry no coverage records") := by
  unfold report
  simp only [empty, if_true]
  rfl

theorem report_eq_ok_iff_verdict (nonempty : totals.isEmpty = false)
    (written : RowsWritten totals out start) :
    ((report totals out).run start).1 = .ok () ↔
      (Tally.total (tallies totals)).branchesFound ≠ U32.zero ∧
        (Tally.total (tallies totals)).isComplete = true := by
  obtain ⟨rowsOut, succeeded⟩ := written
  rw [report_of_nonempty out nonempty, Printing.run_bind_of_ok succeeded]
  exact verdict_run_eq_ok_iff _ rowsOut

theorem total_isComplete_iff {files : List Tally} (bounded : ∀ tally ∈ files, tally.Bounded) :
    (Tally.total files).isComplete = true ↔
      ShownCovered .linesHit .linesFound files ∧
        ShownCovered .branchesHit .branchesFound files := by
  rw [Tally.isComplete_iff]
  have lines := Tally.count_total_eq_iff .linesHit .linesFound
    fun tally member => (bounded tally member).lines
  have branches := Tally.count_total_eq_iff .branchesHit .branchesFound
    fun tally member => (bounded tally member).branches
  exact and_congr lines branches

theorem report_eq_ok_iff (bounded : ∀ tally ∈ tallies totals, tally.Bounded)
    (written : RowsWritten totals out start) :
    ((report totals out).run start).1 = .ok () ↔
      (∃ tally ∈ tallies totals, 0 < tally.branchesFound.value) ∧
        ShownCovered .linesHit .linesFound (tallies totals) ∧
          ShownCovered .branchesHit .branchesFound (tallies totals) := by
  rcases empty : totals.isEmpty with _ | _
  · rw [report_eq_ok_iff_verdict empty written, ← total_isComplete_iff bounded]
    have branchless := Tally.count_total_eq_zero_iff .branchesFound (tallies totals)
    exact and_congr (not_iff_comm.mp branchless.symm) Iff.rfl
  · rw [report_of_isEmpty empty]
    simp [tallies_eq_nil_iff.mpr empty]

theorem shownCovered_of_complete {files : List Tally}
    (complete : ∀ tally ∈ files,
      tally.linesHit = tally.linesFound ∧ tally.branchesHit = tally.branchesFound) :
    ShownCovered .linesHit .linesFound files ∧ ShownCovered .branchesHit .branchesFound files :=
  ⟨.inl fun tally member => congrArg BoundedInteger.value (complete tally member).1,
    .inl fun tally member => congrArg BoundedInteger.value (complete tally member).2⟩

/-- The gate does what it is for exactly where the total hides no shortfall. -/
theorem report_exact_iff (bounded : ∀ tally ∈ tallies totals, tally.Bounded)
    (written : RowsWritten totals out start) :
    (((report totals out).run start).1 = .ok () ↔ FullyCovered totals) ↔
      ¬ ShortfallHidden totals := by
  rw [report_eq_ok_iff bounded written]
  constructor
  · intro agrees hidden
    obtain ⟨⟨tally, member, incomplete⟩, branch, lines, branches⟩ := hidden
    exact incomplete ((agrees.mp ⟨branch, lines, branches⟩).complete tally member)
  · intro visible
    constructor
    · intro shown
      obtain ⟨branch, lines, branches⟩ := shown
      refine ⟨?_, branch, ?_⟩
      · obtain ⟨tally, member, -⟩ := branch
        exact isEmpty_eq_false_of_mem member
      · intro tally member
        by_contra incomplete
        exact visible ⟨⟨tally, member, incomplete⟩, branch, lines, branches⟩
    · intro covered
      obtain ⟨-, branch, complete⟩ := covered
      exact ⟨branch, shownCovered_of_complete complete⟩

end

def keepLines : Writer (List String) where
  writeLine line lines := (.ok (), lines ++ [line])

def tallyOf (linesFound linesHit branchesFound branchesHit : Fin 4294967296) : Tally where
  linesFound := U32.ofFin linesFound
  linesHit := U32.ofFin linesHit
  branchesFound := U32.ofFin branchesFound
  branchesHit := U32.ofFin branchesHit

def coveredTotals : Totals :=
  .ofList [("src/errors.rs", tallyOf 3 3 0 0), ("src/lexer.rs", tallyOf 12 12 4 4)]

theorem report_exact_iff_covered :
    ((report coveredTotals keepLines).run []).1 = .ok () ↔ FullyCovered coveredTotals := by
  have bounded : ∀ tally ∈ tallies coveredTotals, tally.Bounded := by decide +kernel
  have written : RowsWritten coveredTotals keepLines [] := ⟨_, rfl⟩
  exact (report_exact_iff bounded written).mpr
    fun hidden => absurd hidden.shortfall (by decide +kernel)

/-- One file at the largest counts, and one none of whose five lines and
branches was reached. -/
def hiddenTotals : Totals :=
  .ofList [("src/lexer.rs", tallyOf 5 0 5 0),
    ("src/tables.rs", tallyOf 4294967295 4294967295 4294967295 4294967295)]

theorem report_passes_hidden_shortfall :
    ¬ ∀ (totals : Totals) (out : Writer (List String)) (start : List String),
      (∀ tally ∈ tallies totals, tally.Bounded) → RowsWritten totals out start →
        (((report totals out).run start).1 = .ok () ↔ FullyCovered totals) := by
  intro agrees
  have bounded : ∀ tally ∈ tallies hiddenTotals, tally.Bounded := by decide +kernel
  have written : RowsWritten hiddenTotals keepLines [] := ⟨_, rfl⟩
  have passes : ((report hiddenTotals keepLines).run []).1 = .ok () := by decide +kernel
  have covered := (agrees hiddenTotals keepLines [] bounded written).mp passes
  exact absurd covered.complete (by decide +kernel)

end Proofhouse
