import Proofhouse.GetOrComputeProperties

/-!
# One computation for a key

Whatever the computations of the callers are, one of them at most begins for each
key, every caller of the key is handed what it returned, and the counter tells
the keys that have seen one begin.
-/

set_option autoImplicit false

namespace Proofhouse

open Library OnceValue

def GettingEvent.outcome? (key : String) : GettingEvent → Option Outcome
  | .computed expr outcome => if formatExpr expr = key then some outcome else none
  | .began _ | .entered _ | .advanced | .counted _ | .unwound _ | .returned _ _ => none

def GettingEvent.countedKey? : GettingEvent → Option String
  | .counted expr => some (formatExpr expr)
  | .began _ | .entered _ | .advanced | .computed _ _ | .unwound _ | .returned _ _ => none

def GettingEvent.enteredKey? : GettingEvent → Option String
  | .entered expr => some (formatExpr expr)
  | .began _ | .advanced | .counted _ | .computed _ _ | .unwound _ | .returned _ _ => none

section Events

variable {ι : Type}

/-- What the computations under a key have returned. -/
def computedUnder (key : String) (events : List (ι × GettingEvent)) : List Outcome :=
  events.filterMap fun entry => entry.2.outcome? key

def countedKeys (events : List (ι × GettingEvent)) : List String :=
  events.filterMap fun entry => entry.2.countedKey?

def enteredKeys (events : List (ι × GettingEvent)) : List String :=
  events.filterMap fun entry => entry.2.enteredKey?

private theorem computedUnder_of_news {key : String} {events : List (ι × GettingEvent)}
    {keyed : List (ι × Event Outcome)} (same : newsOf keyed = newsUnder key events) :
    computedUnder key events = outcomes keyed := by
  have fromNews := congrArg (List.filterMap fun entry : ι × News Outcome =>
    match entry.2 with
    | .initReturned outcome => some outcome
    | .began _ | .unwound | .returned _ => none) same
  rw [newsOf, newsUnder, List.filterMap_filterMap, List.filterMap_filterMap] at fromNews
  refine Eq.trans ?_ (fromNews.symm.trans ?_)
  · refine List.filterMap_congr fun entry _ => ?_
    obtain ⟨thread, event⟩ := entry
    cases event with
    | computed expr | entered expr | unwound expr | returned expr =>
        by_cases same : formatExpr expr = key <;>
          simp [GettingEvent.outcome?, GettingEvent.news?, same]
    | began | advanced | counted => rfl
  · refine List.filterMap_congr fun entry _ => ?_
    obtain ⟨thread, event⟩ := entry
    cases event <;> rfl

private theorem returned_of_news {key : String} {events : List (ι × GettingEvent)}
    {keyed : List (ι × Event Outcome)} (same : newsOf keyed = newsUnder key events)
    {thread : ι} {expr : Expr} {outcome : Outcome} (onKey : formatExpr expr = key)
    (member : (thread, .returned expr outcome) ∈ events) :
    (thread, .returned (.filled outcome)) ∈ keyed := by
  have told : (thread, News.returned (.filled outcome)) ∈ newsOf keyed := by
    rw [same]
    exact List.mem_filterMap.mpr ⟨_, member, by simp [GettingEvent.news?, onKey]⟩
  obtain ⟨⟨teller, event⟩, ran, tells⟩ := List.mem_filterMap.mp told
  cases event with
  | returned answer => cases tells; exact ran
  | began | accessed | advanced | initReturned | initUnwound | cloneUnwound | readerUnwound =>
      cases tells

end Events

/-!
## The counter
-/

/-- The thread has claimed the key's cell, and its computation is not counted yet. -/
def Getting.Uncounted (key : String) : Getting → Prop
  | .filling expr _ .initializing => formatExpr expr = key
  | .filling _ _ .claiming | .filling _ _ .loading | .filling _ _ .copying
  | .filling _ _ (.duplicating _) | .filling _ _ (.storing _) | .filling _ _ (.publishing _)
  | .filling _ _ (.returned _) | .idle | .looking _ | .computing _ _ => False

theorem Getting.Uncounted.holds {key : String} {own : Getting} (uncounted : own.Uncounted key) :
    (own.onKey key).Holds := by
  cases own with
  | filling expr handle point =>
      cases point with
      | initializing =>
          have onKey : formatExpr expr = key := uncounted
          rw [Getting.onKey, if_pos onKey]
          trivial
      | claiming | loading | copying | duplicating | storing | publishing | returned =>
          exact uncounted.elim
  | idle | looking | computing => exact uncounted.elim

section Steps

variable {cache cache' : ExprCache} {own own' : Getting} {event : GettingEvent}

theorem GettingStep.evaluations (taken : GettingStep cache own event cache' own') :
    cache'.evaluations = cache.evaluations + event.countedKey?.toList.length := by
  cases taken with
  | entered entered =>
      rcases ExprCache.entry_cases entered with ⟨_, rfl⟩ | ⟨_, _, rfl⟩ <;> rfl
  | counted | advanced | began | computed | unwound | returned => rfl

/-- A step under a key counts its computation, or claims its cell, or moves
neither. -/
theorem GettingStep.counts (taken : GettingStep cache own event cache' own')
    (indexed : cache.Indexed) (found : own.Found cache) {key : String}
    (claimed : (own.onKey key).Holds → (cache.cellOf key).state = .initializing) :
    (event.countedKey? = some key ∧ own.Uncounted key ∧ ¬own'.Uncounted key ∧
        (cache'.cellOf key).state = (cache.cellOf key).state) ∨
      (event.countedKey? ≠ some key ∧ (cache.cellOf key).state = .empty ∧
        (cache'.cellOf key).state ≠ .empty ∧ own'.Uncounted key) ∨
      (event.countedKey? ≠ some key ∧ (own'.Uncounted key ↔ own.Uncounted key) ∧
        ((cache'.cellOf key).state = .empty ↔ (cache.cellOf key).state = .empty)) := by
  have silent : (none : Option String) ≠ some key := (Option.some_ne_none key).symm
  cases taken with
  | began | computed | unwound => exact .inr (.inr ⟨silent, Iff.rfl, Iff.rfl⟩)
  | returned => exact .inr (.inr ⟨silent, Iff.rfl, Iff.rfl⟩)
  | entered entered =>
      rw [ExprCache.cellOf_entry indexed entered]
      exact .inr (.inr ⟨silent, Iff.rfl, Iff.rfl⟩)
  | @counted expr =>
      by_cases onKey : formatExpr expr = key
      · exact .inl ⟨congrArg some onKey, onKey, id, rfl⟩
      · exact .inr (.inr ⟨fun same => onKey (Option.some.inj same),
          ⟨False.elim, fun same => onKey same⟩, Iff.rfl⟩)
  | @advanced expr handle point cell' point' advances =>
      by_cases onKey : formatExpr expr = key
      · subst onKey
        rw [ExprCache.cellOf_of_lookup found] at claimed ⊢
        rw [ExprCache.cellOf_setCell_self found]
        rcases (advances_of_advance advances).claims with ⟨rfl, rfl, empty, taken⟩ |
          ⟨_, rfl, rfl, ready⟩ | ⟨source, target, _, same⟩
        · exact .inr (.inl ⟨silent, empty, by rw [taken]; decide, rfl⟩)
        · have holding := claimed (by simp [Getting.onKey, Thread.Holds, Filling.Holds])
          exact .inr (.inr ⟨silent, Iff.rfl, by simp [holding, ready]⟩)
        · refine .inr (.inr ⟨silent, ?_, by rw [same]⟩)
          cases point <;> cases point' <;> simp_all [Getting.Uncounted]
      · rw [ExprCache.cellOf_setCell_of_ne indexed found (Ne.symm onKey)]
        refine .inr (.inr ⟨silent, ?_, Iff.rfl⟩)
        cases point <;> cases point' <;> simp [Getting.Uncounted, onKey]

end Steps

section Runs

variable {ι : Type} [DecidableEq ι] {events : List (ι × GettingEvent)}
  {state : ExprCache × (ι → Getting)}

/-- Whoever holds a key's claim is alone with it. -/
private theorem claimed_alone (run : GettingRuns events state) (key : String) :
    (∀ thread, ((state.2 thread).onKey key).Holds →
      (state.1.cellOf key).state = .initializing) ∧
    ∀ thread other, ((state.2 thread).onKey key).Holds → ((state.2 other).onKey key).Holds →
      thread = other := by
  obtain ⟨_, keyedRun, _⟩ := run.onKey key
  exact ⟨keyedRun.agreed.claimed, keyedRun.agreed.alone⟩

/-- How often the computations under a key were counted: not before the claim, nor
while the thread with the claim has yet to do so, and then once. -/
structure Counts (key : String) (count : Nat) (cache : ExprCache) (pool : ι → Getting) :
    Prop where
  fresh : (cache.cellOf key).state = .empty → count = 0
  waiting : ∀ thread, (pool thread).Uncounted key → count = 0
  done : (cache.cellOf key).state ≠ .empty → (∀ thread, ¬(pool thread).Uncounted key) → count = 1

private theorem Counts.step {key : String} {count : Nat} {cache cache' : ExprCache}
    {pool : ι → Getting} {stepping : ι} {event : GettingEvent} {own' : Getting}
    (counts : Counts key count cache pool) (run : GettingRuns events (cache, pool))
    (taken : GettingStep cache (pool stepping) event cache' own') :
    Counts key (count + if event.countedKey? = some key then 1 else 0) cache'
      (Function.update pool stepping own') := by
  obtain ⟨indexed, found⟩ := run.found
  obtain ⟨claimed, alone⟩ := claimed_alone run key
  have others : ∀ thread, thread ≠ stepping → Function.update pool stepping own' thread =
      pool thread := fun thread other => Function.update_of_ne other ..
  rcases taken.counts indexed (found stepping) (claimed stepping) with
    ⟨counted, before, after, same⟩ | ⟨silent, empty, filled, after⟩ | ⟨silent, same, phase⟩
  · rw [if_pos counted, counts.waiting stepping before]
    have initializing : (cache.cellOf key).state = .initializing := claimed stepping before.holds
    refine ⟨fun empty => ?_, fun thread uncounted => ?_, fun _ _ => rfl⟩
    · exact absurd (empty.symm.trans (same.trans initializing)) (by decide)
    · by_cases other : thread = stepping
      · subst other
        rw [Function.update_self] at uncounted
        exact absurd uncounted after
      · rw [others thread other] at uncounted
        exact absurd (alone thread stepping uncounted.holds before.holds) other
  · rw [if_neg silent, counts.fresh empty]
    refine ⟨fun _ => rfl, fun _ _ => rfl, fun _ nobody => absurd ?_ (nobody stepping)⟩
    rwa [Function.update_self]
  · rw [if_neg silent]
    refine ⟨fun empty => counts.fresh (phase.mp empty), fun thread uncounted => ?_,
      fun filled nobody => counts.done (fun empty => filled (phase.mpr empty)) fun thread => ?_⟩
    · by_cases other : thread = stepping
      · subst other
        rw [Function.update_self] at uncounted
        exact counts.waiting _ (same.mp uncounted)
      · rw [others thread other] at uncounted
        exact counts.waiting thread uncounted
    · have free := nobody thread
      by_cases other : thread = stepping
      · subst other
        rw [Function.update_self] at free
        exact fun uncounted => free (same.mpr uncounted)
      · rwa [others thread other] at free

theorem GettingRuns.counts (run : GettingRuns events state) (key : String) :
    Counts key ((countedKeys events).count key) state.1 state.2 := by
  refine (@Run.invariant _ _ _ (fun events state => GettingRuns events state ∧
    Counts key ((countedKeys events).count key) state.1 state.2) _ _ _ run
    ⟨.start, fun _ => rfl, fun _ _ => rfl, fun filled => absurd rfl filled⟩
    fun {events state entry next} held taken => ⟨.snoc held.1 taken, ?_⟩).2
  obtain ⟨run, counts⟩ := held
  rw [countedKeys, List.filterMap_append, List.count_append]
  cases taken with
  | @act cache pool stepping event cache' own' taken =>
  have last : (List.filterMap (fun entry => entry.2.countedKey?) [(stepping, event)]).count key =
      if event.countedKey? = some key then 1 else 0 := by
    cases counted : event.countedKey? <;> simp [counted, List.count_singleton]
  rw [last]
  exact counts.step run taken

/-!
## The keys asked for
-/

/-- The tree is filed under its key and its thread is yet to try for the claim. -/
def Getting.Claims (key : String) (own : Getting) : Prop :=
  ∃ expr handle, own = .filling expr handle .claiming ∧ formatExpr expr = key

/-- A step at the claim finds the cell claimed afterwards, by itself or before. -/
private theorem claimed_of_claims {cache cache' : ExprCache} {own own' : Getting}
    {event : GettingEvent} {key : String} (taken : GettingStep cache own event cache' own')
    (found : own.Found cache) (claims : own.Claims key) :
    event.enteredKey? = none ∧ (cache'.cellOf key).state ≠ .empty := by
  obtain ⟨expr, handle, rfl, rfl⟩ := claims
  cases taken with
  | advanced advances =>
      refine ⟨rfl, ?_⟩
      rw [ExprCache.cellOf_setCell_self found]
      cases advances_of_advance advances with
      | claimed => exact nofun
      | taken claimed => exact claimed

structure Entered (events : List (ι × GettingEvent)) (state : ExprCache × (ι → Getting)) :
    Prop where
  filed : ∀ {key handle}, state.1.entries.lookup key = some handle → key ∈ enteredKeys events
  claimed : ∀ key ∈ enteredKeys events, (state.1.cellOf key).state ≠ .empty ∨
    ∃ thread, (state.2 thread).Claims key

theorem GettingRuns.entered (run : GettingRuns events state) : Entered events state := by
  refine (@Run.invariant _ _ _ (fun events state => GettingRuns events state ∧
    Entered events state) _ _ _ run ⟨.start, ⟨fun filed => (by cases filed), nofun⟩⟩
    fun {events state entry next} held taken => ⟨.snoc held.1 taken, ?_⟩).2
  obtain ⟨run, entered⟩ := held
  obtain ⟨indexed, found⟩ := run.found
  cases taken with
  | @act cache pool stepping event cache' own' taken =>
  have grown : ∀ key, key ∈ enteredKeys (events ++ [(stepping, event)]) ↔
      key ∈ enteredKeys events ∨ event.enteredKey? = some key := by
    intro key
    simp [enteredKeys]
  refine ⟨fun {key handle} filed => ?_, fun key member => ?_⟩
  · rw [grown]
    generalize pool stepping = own at taken
    cases taken with
    | entered lookedUp =>
        exact (ExprCache.entry_lookup lookedUp filed).imp entered.filed
          fun same => congrArg some same.symm
    | began | advanced | counted | computed | unwound | returned => exact .inl (entered.filed filed)
  · dsimp only
    rcases (grown key).mp member with known | new
    · rcases entered.claimed key known with claimed | ⟨thread, claims⟩
      · exact .inl (taken.le.cellOf_not_empty indexed claimed)
      · by_cases own : thread = stepping
        · subst own
          exact .inl (claimed_of_claims taken (found thread) claims).2
        · exact .inr ⟨thread, by rwa [Function.update_of_ne own]⟩
    · generalize pool stepping = own at taken
      cases taken with
      | @entered expr handle =>
          exact .inr ⟨stepping, expr, handle, Function.update_self .., Option.some.inj new⟩
      | began | advanced | counted | computed | unwound | returned => cases new

theorem GettingRuns.evaluations (run : GettingRuns events state) :
    state.1.evaluations = (countedKeys events).length := by
  refine @Run.invariant _ _ _ (fun events state =>
    state.1.evaluations = (countedKeys events).length) _ _ _ run rfl
    fun {events state entry next} same taken => ?_
  cases taken with
  | @act cache pool stepping event cache' own' taken =>
  rw [countedKeys, List.filterMap_append, List.length_append]
  change cache'.evaluations = (countedKeys events).length + _
  rw [taken.evaluations, ← same]
  cases counted : event.countedKey? <;> simp [counted]

theorem GettingRuns.countedKeys_nodup (run : GettingRuns events state) :
    (countedKeys events).Nodup := by
  refine List.nodup_iff_count_le_one.mpr fun key => ?_
  have counts := run.counts key
  by_cases empty : (state.1.cellOf key).state = .empty
  · exact (counts.fresh empty).trans_le (Nat.zero_le _)
  by_cases waiting : ∃ thread, (state.2 thread).Uncounted key
  · obtain ⟨thread, uncounted⟩ := waiting
    exact (counts.waiting thread uncounted).trans_le (Nat.zero_le _)
  · exact Nat.le_of_eq (counts.done empty (not_exists.mp waiting))

/-- Between calls the keys counted are the keys asked for. -/
theorem GettingRuns.mem_countedKeys (run : GettingRuns events state)
    (quiescent : ∀ thread, state.2 thread = .idle) (key : String) :
    key ∈ countedKeys events ↔ key ∈ enteredKeys events := by
  have counts := run.counts key
  have entered := run.entered
  constructor
  · intro counted
    have claimed : (state.1.cellOf key).state ≠ .empty := fun empty =>
      absurd counted (List.count_eq_zero.mp (counts.fresh empty))
    cases filed : state.1.entries.lookup key with
    | none =>
        rw [ExprCache.cellOf, filed] at claimed
        exact absurd rfl claimed
    | some handle => exact entered.filed filed
  · intro member
    rcases entered.claimed key member with claimed | ⟨thread, _, _, claims, _⟩
    · have once := counts.done claimed fun thread => by
        rw [quiescent thread]
        exact id
      exact List.count_pos_iff.mp (by omega)
    · cases (quiescent thread).symm.trans claims

/-- Whatever the interleaving, and whatever the computations return or whether they
unwind: each call under a key returns what the one computation under it returned,
no key sees a second one begin, and the counter tells the keys that saw one,
between calls all that were asked for. -/
theorem gettingRuns_agree (run : GettingRuns events state) :
    (∀ thread expr outcome, (thread, .returned expr outcome) ∈ events →
      computedUnder (formatExpr expr) events = [outcome]) ∧
    (countedKeys events).Nodup ∧
    state.1.evaluations = (countedKeys events).length ∧
    ((∀ thread, state.2 thread = .idle) →
      state.1.evaluations = (enteredKeys events).toFinset.card) := by
  refine ⟨fun thread expr outcome returned => ?_, run.countedKeys_nodup, run.evaluations,
    fun quiescent => ?_⟩
  · obtain ⟨keyed, keyedRun, same⟩ := run.onKey (formatExpr expr)
    rw [computedUnder_of_news same]
    exact (keyedRun.agreed.told thread _ (returned_of_news same rfl returned)).2
  · have sameKeys : (countedKeys events).toFinset = (enteredKeys events).toFinset := by
      ext key
      rw [List.mem_toFinset, List.mem_toFinset, run.mem_countedKeys quiescent]
    rw [run.evaluations, ← sameKeys, List.toFinset_card_of_nodup run.countedKeys_nodup]

end Runs

theorem gettingRuns_agree_ownWay :
    ∃ state, GettingRuns (ownWay 0 1 (.number ⟨4, by decide, by decide⟩) (.error .overflow))
      state ∧ state.1.evaluations = 1 := by
  obtain ⟨state, run, quiescent⟩ :=
    ownWay_runs (.number ⟨4, by decide, by decide⟩) (.error .overflow)
  refine ⟨state, run, ((gettingRuns_agree run).2.2.2 quiescent).trans ?_⟩
  decide

end Proofhouse
