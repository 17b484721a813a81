import Proofhouse.CacheCells
import Proofhouse.GetOrCompute
import Proofhouse.SyncLinearization

/-!
# A table is a cell for every key

What happens under one key is a run of one write-once cell, whatever is done
under the other keys and whatever the computations do. So a key is answered as an
atomic register is, from one computation at most, and the counter tells the keys
whose computation began.
-/

set_option autoImplicit false

namespace Proofhouse

open Library OnceValue

/-!
## The calls under a key
-/

namespace Getting

/-- Where a thread stands as a caller of the key's cell. -/
def onKey (key : String) : Getting → Thread Outcome
  | .filling expr _ point => if formatExpr expr = key then .filling point else .idle
  | .computing expr _ => if formatExpr expr = key then .filling .initializing else .idle
  | .idle | .looking _ => .idle

/-- The handle a thread holds is the one its tree is filed under. -/
def Found (cache : ExprCache) : Getting → Prop
  | .filling expr handle _ | .computing expr handle => cache.Filed expr handle
  | .idle | .looking _ => True

end Getting

/-- What a caller of the key's cell learns from an event. -/
def GettingEvent.news? (key : String) : GettingEvent → Option (News Outcome)
  | .entered expr => if formatExpr expr = key then some (.began .getOrInit) else none
  | .computed expr outcome => if formatExpr expr = key then some (.initReturned outcome) else none
  | .unwound expr => if formatExpr expr = key then some .unwound else none
  | .returned expr outcome =>
      if formatExpr expr = key then some (.returned (.filled outcome)) else none
  | .began _ | .advanced | .counted _ => none

def newsUnder {ι : Type} (key : String) (events : List (ι × GettingEvent)) :
    List (ι × News Outcome) :=
  events.filterMap fun entry => (entry.2.news? key).map (entry.1, ·)

section Steps

variable {cache cache' : ExprCache} {own own' : Getting} {event : GettingEvent}

theorem GettingStep.le (taken : GettingStep cache own event cache' own') : cache.Le cache' := by
  cases taken with
  | entered found => exact ExprCache.entry_le found
  | advanced advances => exact ExprCache.setCell_le (advances_of_advance advances).le
  | counted => exact ExprCache.countEvaluation_le _
  | began | computed | unwound | returned => exact .refl _

theorem GettingStep.found (taken : GettingStep cache own event cache' own')
    (indexed : cache.Indexed) (found : own.Found cache) :
    cache'.Indexed ∧ own'.Found cache' := by
  cases taken with
  | entered entered => exact ⟨indexed.entry entered, ExprCache.entry_filed entered⟩
  | advanced | counted => exact ⟨⟨indexed.bounded, indexed.injective⟩, found⟩
  | computed => exact ⟨indexed, found⟩
  | began | unwound | returned => exact ⟨indexed, trivial⟩

theorem Getting.Found.mono {other : Getting} (found : other.Found cache)
    (ordered : cache.Le cache') : other.Found cache' := by
  cases other with
  | filling | computing => exact ordered.entries found
  | idle | looking => trivial

/-- A step on the table is a step on the cell of the key, or nothing to it. -/
theorem GettingStep.seen (taken : GettingStep cache own event cache' own')
    (indexed : cache.Indexed) (found : own.Found cache) (key : String) :
    Seen Step Event.news? (cache.cellOf key) (own.onKey key) (event.news? key)
      (cache'.cellOf key) (own'.onKey key) := by
  cases taken with
  | began => exact .stutter
  | @entered expr _ _ entered =>
      rw [ExprCache.cellOf_entry indexed entered]
      by_cases same : formatExpr expr = key
      · simp only [Getting.onKey, GettingEvent.news?, if_pos same]
        exact .step (@Step.began _ _ .getOrInit) rfl
      · simp only [Getting.onKey, GettingEvent.news?, if_neg same]
        exact .stutter
  | @advanced expr handle point cell' point' advances =>
      by_cases same : formatExpr expr = key
      · subst same
        rw [ExprCache.cellOf_setCell_self found]
        simp only [Getting.onKey, GettingEvent.news?, if_true]
        rw [← ExprCache.cellOf_of_lookup found] at advances
        exact .step (.advanced advances) rfl
      · rw [ExprCache.cellOf_setCell_of_ne indexed found (Ne.symm same)]
        simp only [Getting.onKey, GettingEvent.news?, if_neg same]
        exact .stutter
  | counted => exact .stutter
  | @computed expr handle outcome =>
      by_cases same : formatExpr expr = key
      · simp only [Getting.onKey, GettingEvent.news?, if_pos same]
        exact .step .initReturned rfl
      · simp only [Getting.onKey, GettingEvent.news?, if_neg same]
        exact .stutter
  | @unwound expr handle =>
      by_cases same : formatExpr expr = key
      · simp only [Getting.onKey, GettingEvent.news?, if_pos same]
        exact .step .initUnwound rfl
      · simp only [Getting.onKey, GettingEvent.news?, if_neg same]
        exact .stutter
  | @returned expr handle outcome =>
      by_cases same : formatExpr expr = key
      · simp only [Getting.onKey, GettingEvent.news?, if_pos same]
        exact .step .filled rfl
      · simp only [Getting.onKey, GettingEvent.news?, if_neg same]
        exact .stutter

end Steps

section Runs

variable {ι : Type} [DecidableEq ι] {events : List (ι × GettingEvent)}
  {state : ExprCache × (ι → Getting)}

theorem GettingRuns.found (run : GettingRuns events state) :
    state.1.Indexed ∧ ∀ thread, (state.2 thread).Found state.1 := by
  refine @Run.invariant _ _ _ (fun _ state => state.1.Indexed ∧
    ∀ thread, (state.2 thread).Found state.1) _ _ _ run
    ⟨ExprCache.indexed_new, fun _ => trivial⟩ fun {events state entry next} held taken => ?_
  obtain ⟨indexed, found⟩ := held
  cases taken with
  | @act cache pool stepping event cache' own' taken =>
  obtain ⟨indexed', found'⟩ := taken.found indexed (found stepping)
  refine ⟨indexed', fun thread => ?_⟩
  dsimp only
  rw [Function.update_apply]
  split
  · exact found'
  · exact (found thread).mono taken.le

/-- The traffic under one key is a run of one cell. -/
theorem GettingRuns.onKey (run : GettingRuns events state) (key : String) :
    ∃ keyed : List (ι × Event Outcome),
      Runs keyed (state.1.cellOf key, Getting.onKey key ∘ state.2) ∧
      newsOf keyed = newsUnder key events :=
  Run.refine_pool run fun reached taken => by
    obtain ⟨indexed, found⟩ := GettingRuns.found reached
    exact taken.seen indexed (found _) key

/-- Whatever the computations do, the callers under a key are answered as those of
an atomic register are. -/
theorem gettingRuns_linearize (run : GettingRuns events state) (key : String) :
    ∃ atomic : List (ι × AtomicEvent Outcome),
      AtomicRuns atomic ((state.1.cellOf key).register,
        Thread.caller ∘ Getting.onKey key ∘ state.2) ∧
      atomicNews atomic = newsUnder key events ∧
      Run Effect none (effects atomic) (state.1.cellOf key).register := by
  obtain ⟨keyed, keyedRun, sameNews⟩ := run.onKey key
  obtain ⟨atomic, atomicRun, same⟩ := keyedRun.refine_register
  exact ⟨atomic, atomicRun, same.trans sameNews, AtomicRuns.sequential atomicRun⟩

theorem GettingRuns.start : GettingRuns ([] : List (ι × GettingEvent)) (.new, fun _ => .idle) :=
  Run.start

theorem GettingRuns.act {cache cache' : ExprCache} {pool : ι → Getting} {own' : Getting}
    {event : GettingEvent} (run : GettingRuns events (cache, pool)) (thread : ι)
    (taken : GettingStep cache (pool thread) event cache' own') :
    GettingRuns (events ++ [(thread, event)]) (cache', Function.update pool thread own') :=
  .snoc run (.act taken)

end Runs

/-- A call that answers a miss its own way, and a later one that is handed the same
answer without a computation. -/
def ownWay (first later : Fin 2) (expr : Expr) (outcome : Outcome) :
    List (Fin 2 × GettingEvent) :=
  [(first, .began expr), (first, .entered expr), (first, .advanced), (first, .counted expr),
    (first, .computed expr outcome), (first, .advanced), (first, .advanced), (first, .advanced),
    (first, .returned expr outcome), (later, .began expr), (later, .entered expr),
    (later, .advanced), (later, .advanced), (later, .advanced), (later, .returned expr outcome)]

theorem ownWay_runs (expr : Expr) (outcome : Outcome) :
    ∃ state, GettingRuns (ownWay 0 1 expr outcome) state ∧ ∀ thread, state.2 thread = .idle := by
  have computed := (@GettingRuns.start (Fin 2) _).act 0 (@GettingStep.began _ expr)
    |>.act 0 (.entered (Prod.eta _).symm) |>.act 0 (.advanced rfl) |>.act 0 .counted
    |>.act 0 (@GettingStep.computed _ _ _ outcome) |>.act 0 (.advanced rfl)
    |>.act 0 (.advanced rfl) |>.act 0 (.advanced rfl) |>.act 0 .returned
  have found : ∀ {cache : ExprCache}, cache.entries = Finmap.insert (formatExpr expr) 0 ∅ →
      cache.entry (formatExpr expr) = (0, cache) := by
    intro cache filed
    exact ExprCache.entry_of_lookup (filed ▸ Finmap.lookup_insert _)
  have run := computed.act 1 (@GettingStep.began _ expr) |>.act 1 (.entered (found rfl))
    |>.act 1 (.advanced rfl) |>.act 1 (.advanced rfl) |>.act 1 (.advanced rfl) |>.act 1 .returned
  exact ⟨_, run, Fin.forall_fin_two.mpr ⟨rfl, rfl⟩⟩

theorem gettingRuns_linearize_ownWay :
    ∃ (atomic : List (Fin 2 × AtomicEvent Outcome)) (state : _), AtomicRuns atomic state ∧
      atomicNews atomic =
        newsUnder "4" (ownWay 0 1 (.number ⟨4, by decide, by decide⟩) (.error .overflow)) := by
  obtain ⟨state, run, -⟩ := ownWay_runs (.number ⟨4, by decide, by decide⟩) (.error .overflow)
  obtain ⟨atomic, atomicRun, same, -⟩ := gettingRuns_linearize run "4"
  exact ⟨atomic, _, atomicRun, same⟩

end Proofhouse
