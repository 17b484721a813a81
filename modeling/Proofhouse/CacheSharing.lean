import Mathlib.Algebra.Order.BigOperators.Group.Multiset
import Mathlib.Algebra.Order.BigOperators.Group.Finset
import Proofhouse.ConcurrentClaims

/-!
# Sharing a table

Any number of threads call `ExprCache::evaluate` on one table. Every call
returns the value of its own tree, and the counter tells the renderings asked
for, exactly when no call is in progress.
-/

set_option autoImplicit false

namespace Proofhouse

open Library

/-- The process is a plain request for the tree, wherever it stands. -/
def Process.Serves (argument : Expr) : Process → Prop
  | .lookup ask | .cell ask _ _ => ask = .evaluate argument
  | .compute expr _ => expr = argument
  | .spawn _ _ _ _ | .scope _ _ _ _ _ _ | .leftOperand _ _ _ _ _
  | .rightOperand _ _ _ _ _ _ => False

theorem Process.Serves.expr {argument : Expr} {process : Process}
    (serves : process.Serves argument) : process.expr = argument := by
  cases process with
  | lookup ask | cell ask => exact congrArg Ask.expr serves
  | compute expr => exact serves
  | spawn | scope | leftOperand | rightOperand => exact serves.elim

theorem Process.Serves.step {argument : Expr} {cache cache' : ExprCache}
    {process process' : Process} {action : Action} (serves : process.Serves argument)
    (taken : Step cache process action cache' process') : process'.Serves argument := by
  cases taken with
  | entry | cell => exact serves
  | countEvaluate => cases serves; rfl
  | compute => cases serves; rfl
  | countShared => cases serves
  | spawn | worker | own | join | left | leftRead | leftFailed | right | rightRead | rightFailed =>
      exact serves.elim

theorem Process.Serves.filed {argument : Expr} {cache cache' : ExprCache}
    {process process' : Process} {action : Action} (serves : process.Serves argument)
    (taken : Step cache process action cache' process') {key : String} {handle : Nat}
    (filed : cache'.entries.lookup key = some handle) :
    cache.entries.lookup key = some handle ∨ key = formatExpr argument := by
  cases taken with
  | entry entered =>
      cases serves
      exact ExprCache.entry_lookup entered filed
  | cell | countEvaluate | compute | countShared => exact .inl filed
  | spawn | worker | own | join | left | leftRead | leftFailed | right | rightRead | rightFailed =>
      exact serves.elim

/-- The claims a thread holds, between calls none. -/
def callHolding : Option EvaluateCall → Multiset Nat
  | none => 0
  | some call => call.process.holding

def callUncounted : Option EvaluateCall → Nat
  | none => 0
  | some call => call.process.uncounted

theorem callUncounted_le (call : Option EvaluateCall) :
    callUncounted call ≤ (callHolding call).card := by
  cases call with
  | none => exact Nat.le_refl _
  | some call => exact call.process.uncounted_le_card_holding

def CallFits (cache : ExprCache) : Option EvaluateCall → Prop
  | none => True
  | some call => call.process.Fits cache ∧ call.process.Serves call.argument

def CallEvent.asked? : CallEvent → Option Expr
  | .began argument => some argument
  | .acted _ | .returned _ _ => none

def askedTrees {ι : Type} (events : List (ι × CallEvent)) : List Expr :=
  events.filterMap fun entry => entry.2.asked?

section Calls

variable {cache cache' : ExprCache} {call call' : Option EvaluateCall} {event : CallEvent}

theorem CallStep.le (taken : CallStep cache call event cache' call') : cache.Le cache' := by
  cases taken with
  | began | returned => exact .refl _
  | acted taken => exact taken.le

theorem CallStep.fits (taken : CallStep cache call event cache' call') (sound : cache.Sound)
    (fits : CallFits cache call) : cache'.Sound ∧ CallFits cache' call' := by
  cases taken with
  | began => exact ⟨sound, trivial, rfl⟩
  | acted taken =>
      obtain ⟨sound', fits'⟩ := taken.sound sound fits.1
      exact ⟨sound', fits', fits.2.step taken⟩
  | returned => exact ⟨sound, trivial⟩

theorem CallFits.mono (fits : CallFits cache call) (sound : cache.Sound)
    (ordered : cache.Le cache') : CallFits cache' call := by
  cases call with
  | none => trivial
  | some call => exact ⟨fits.1.mono sound ordered, fits.2⟩

theorem CallStep.balanced (taken : CallStep cache call event cache' call') (sound : cache.Sound)
    (fits : CallFits cache call) (held : callHolding call ≤ cache.claimed) :
    callHolding call' + cache.claimed = callHolding call + cache'.claimed ∧
      cache'.evaluations + callUncounted call' + cache.started =
        cache.evaluations + callUncounted call + cache'.started := by
  cases taken with
  | began => exact ⟨rfl, rfl⟩
  | acted taken =>
      have balanced := taken.balanced sound fits.1 held
      exact ⟨balanced.claims, balanced.counts⟩
  | returned returned =>
      have finished := Process.holding_of_result returned
      simp [callHolding, callUncounted, finished.1, finished.2]

theorem CallStep.filed (taken : CallStep cache call event cache' call') (fits : CallFits cache call)
    {key : String} {handle : Nat} (filed : cache'.entries.lookup key = some handle) :
    cache.entries.lookup key = some handle ∨
      ∃ asking, call = some asking ∧ key = formatExpr asking.argument := by
  cases taken with
  | began | returned => exact .inl filed
  | acted taken =>
      rcases fits.2.filed taken filed with before | same
      · exact .inl before
      · exact .inr ⟨_, rfl, same⟩

theorem CallStep.asking (taken : CallStep cache call event cache' call') {asking : EvaluateCall}
    (calling : call' = some asking) :
    event.asked? = some asking.argument ∨
      ∃ before, call = some before ∧ before.argument = asking.argument := by
  cases taken with
  | began =>
      cases calling
      exact .inl rfl
  | acted =>
      cases calling
      exact .inr ⟨_, rfl, rfl⟩
  | returned => cases calling

theorem CallStep.serves (taken : CallStep cache call event cache' call')
    (fits : CallFits cache call) {asking : EvaluateCall} (calling : call = some asking) :
    cache.Ready asking.argument ∨
      ∃ after, call' = some after ∧ after.argument = asking.argument := by
  cases taken with
  | began => cases calling
  | acted =>
      cases calling
      exact .inr ⟨_, rfl, rfl⟩
  | returned returned =>
      cases calling
      obtain ⟨_, handle, filed, ready⟩ := fits.1.result returned
      rw [fits.2.expr] at filed
      exact .inl ⟨handle, filed, ready⟩

theorem CallStep.begins (taken : CallStep cache call event cache' call') {argument : Expr}
    (asked : event.asked? = some argument) :
    ∃ after, call' = some after ∧ after.argument = argument := by
  cases taken with
  | began =>
      cases asked
      exact ⟨_, rfl, rfl⟩
  | acted | returned => cases asked

theorem CallStep.agrees (taken : CallStep cache call event cache' call')
    (fits : CallFits cache call) {argument : Expr} {value : Outcome}
    (returned : event = .returned argument value) : value = evaluate argument := by
  cases taken with
  | began | acted => cases returned
  | returned result =>
      cases returned
      have same := congrArg evaluate fits.2.expr
      exact (fits.1.result result).1.trans same

end Calls

section Runs

variable {ι : Type} {events : List (ι × CallEvent)}
  {state next : ExprCache × (ι → Option EvaluateCall)}

theorem askedTrees_append (events : List (ι × CallEvent)) (entry : ι × CallEvent) :
    askedTrees (events ++ [entry]) = askedTrees events ++ entry.2.asked?.toList := by
  cases asked : entry.2.asked? <;> simp [askedTrees, asked]

variable [DecidableEq ι]

theorem SharedRuns.start : SharedRuns ([] : List (ι × CallEvent)) (.new, fun _ => none) :=
  Run.start

theorem SharedRuns.act {cache cache' : ExprCache} {pool : ι → Option EvaluateCall}
    {call' : Option EvaluateCall} {event : CallEvent} (run : SharedRuns events (cache, pool))
    (thread : ι) (taken : CallStep cache (pool thread) event cache' call') :
    SharedRuns (events ++ [(thread, event)]) (cache', Function.update pool thread call') :=
  .snoc run (.act taken)

theorem ExprCache.le_of_run {later : List (ι × CallEvent)}
    (goesOn : Run (Interleaves CallStep) state later next) : state.1.Le next.1 :=
  @Run.relates _ _ _ (fun before after => before.1.Le after.1) _ _ _ goesOn (fun _ => .refl _)
    .trans fun taken => by cases taken with | act taken => exact taken.le

end Runs

/-!
## The invariant
-/

section Invariant

variable {ι : Type} [Fintype ι] {events : List (ι × CallEvent)}
  {state next : ExprCache × (ι → Option EvaluateCall)} {entry : ι × CallEvent}

/-- What holds of a table, the threads that share it and the events so far. -/
structure Shared (events : List (ι × CallEvent))
    (state : ExprCache × (ι → Option EvaluateCall)) : Prop where
  sound : state.1.Sound
  fits : ∀ thread, CallFits state.1 (state.2 thread)
  claims : ∑ thread, callHolding (state.2 thread) = state.1.claimed
  counts : state.1.evaluations + ∑ thread, callUncounted (state.2 thread) = state.1.started
  asked : ∀ key handle, state.1.entries.lookup key = some handle →
    ∃ argument ∈ askedTrees events, formatExpr argument = key
  asking : ∀ thread call, state.2 thread = some call → call.argument ∈ askedTrees events
  served : ∀ argument ∈ askedTrees events, state.1.Ready argument ∨
      ∃ thread call, state.2 thread = some call ∧ call.argument = argument
  agrees : ∀ thread argument value, (thread, .returned argument value) ∈ events →
    value = evaluate argument

private theorem shared_initially :
    Shared ([] : List (ι × CallEvent)) (.new, fun _ => none) where
  sound := ExprCache.sound_new
  fits _ := trivial
  claims := Finset.sum_const_zero
  counts := by
    simp only [callUncounted, Finset.sum_const_zero]
    rfl
  asked _ _ filed := by cases filed
  asking _ _ calling := by cases calling
  served _ member := by cases member
  agrees _ _ _ member := by cases member

/-- Published cells are counted, and what is counted has been claimed. -/
theorem Shared.evaluations_bounds (shared : Shared events state) :
    (state.1.inPhase .ready).card ≤ state.1.evaluations ∧
      state.1.evaluations ≤ state.1.entries.keys.card := by
  have pending : ∑ thread, callUncounted (state.2 thread) ≤ state.1.claimed.card := by
    rw [← shared.claims, Multiset.card_sum]
    exact Finset.sum_le_sum fun thread _ => callUncounted_le _
  have counts := shared.counts
  have started := state.1.card_claimed_add_ready
  have filed := state.1.started_le
  rw [shared.sound.card]
  omega

theorem Shared.ready_of_quiescent (shared : Shared events state)
    (quiescent : ∀ thread, state.2 thread = none) {argument : Expr}
    (member : argument ∈ askedTrees events) : state.1.Ready argument := by
  rcases shared.served argument member with ready | ⟨thread, call, calling, _⟩
  · exact ready
  · rw [quiescent thread] at calling
    cases calling

theorem Shared.evaluations_of_quiescent (shared : Shared events state)
    (quiescent : ∀ thread, state.2 thread = none) :
    state.1.evaluations = ((askedTrees events).map formatExpr).toFinset.card := by
  have unclaimed : state.1.claimed = 0 := by
    rw [← shared.claims]
    exact Finset.sum_eq_zero fun thread _ => by rw [quiescent thread]; rfl
  have counts : state.1.evaluations = state.1.started := by
    rw [← shared.counts, Finset.sum_eq_zero fun thread _ => by rw [quiescent thread]; rfl]
    rfl
  exact shared.sound.evaluations_eq unclaimed counts shared.asked
    fun _ member => shared.ready_of_quiescent quiescent member

variable [DecidableEq ι]

private theorem Shared.step (shared : Shared events state)
    (taken : Interleaves CallStep state entry next) : Shared (events ++ [entry]) next := by
  have fits : ∀ thread, next.1.Sound ∧ CallFits next.1 (next.2 thread) :=
    taken.forall (fun taken both => taken.fits both.1 both.2)
      (fun taken own other => ⟨(taken.fits own.1 own.2).1, other.2.mono own.1 taken.le⟩)
      (fun thread => ⟨shared.sound, shared.fits thread⟩)
  cases taken with
  | @act cache pool stepping event cache' call' taken =>
  obtain ⟨sound, fitsBefore, claims, counts, asked, asking, served, agrees⟩ := shared
  dsimp only at sound fitsBefore claims counts asked asking served agrees fits ⊢
  have held : callHolding (pool stepping) ≤ cache.claimed := by
    rw [← claims]
    exact Finset.single_le_sum (fun _ _ => Multiset.zero_le _) (Finset.mem_univ stepping)
  obtain ⟨claimsStep, countsStep⟩ := taken.balanced sound (fitsBefore stepping) held
  have ordered := taken.le
  refine ⟨(fits stepping).1, fun thread => (fits thread).2, ?_, ?_, ?_, ?_, ?_, ?_⟩
  · have total := sum_update_add callHolding pool stepping call'
    rw [claims, add_comm cache.claimed, claimsStep, add_comm (callHolding (pool stepping))] at total
    exact add_right_cancel total
  · have total := sum_update_add callUncounted pool stepping call'
    dsimp only
    omega
  · intro key handle filed
    rw [askedTrees_append]
    rcases taken.filed (fitsBefore stepping) filed with before | ⟨call, calling, rfl⟩
    · obtain ⟨argument, member, same⟩ := asked key handle before
      exact ⟨argument, List.mem_append_left _ member, same⟩
    · exact ⟨call.argument, List.mem_append_left _ (asking stepping call calling), rfl⟩
  · intro thread call calling
    rw [askedTrees_append]
    dsimp only at calling
    rw [Function.update_apply] at calling
    split at calling
    · rcases taken.asking calling with asked | ⟨before, callingBefore, same⟩
      · exact List.mem_append_right _ (Option.mem_toList.mpr asked)
      · exact same ▸ List.mem_append_left _ (asking stepping before callingBefore)
    · exact List.mem_append_left _ (asking thread call calling)
  · intro argument member
    rw [askedTrees_append] at member
    rcases List.mem_append.mp member with member | member
    · rcases served argument member with ready | ⟨thread, call, calling, rfl⟩
      · exact .inl (ready.mono sound ordered)
      · by_cases same : thread = stepping
        · rw [same] at calling
          rcases taken.serves (fitsBefore stepping) calling with ready | later
          · exact .inl (ready.mono sound ordered)
          · exact .inr ⟨stepping, by simpa only [Function.update_self] using later⟩
        · exact .inr ⟨thread, call, by simpa only [Function.update_of_ne same] using calling, rfl⟩
    · have later := taken.begins (Option.mem_toList.mp member)
      exact .inr ⟨stepping, by simpa only [Function.update_self] using later⟩
  · intro thread argument value member
    rcases List.mem_append.mp member with member | member
    · exact agrees thread argument value member
    · cases List.mem_singleton.mp member
      exact taken.agrees (fitsBefore stepping) rfl

theorem SharedRuns.shared (run : SharedRuns events state) : Shared events state :=
  run.invariant shared_initially Shared.step

/-- A shared table is transparent and counts exactly: every call returns the
value of its own tree, an entry stays filed, the counter lies between the ready
and the filed cells and never falls, and between calls it is the number of
renderings ever asked for. -/
theorem sharedRuns_transparent (run : SharedRuns events state) :
    (∀ thread argument value, (thread, .returned argument value) ∈ events →
      value = evaluate argument) ∧
    (∀ later next, Run (Interleaves CallStep) state later next →
      (∀ key handle, state.1.entries.lookup key = some handle →
        next.1.entries.lookup key = some handle) ∧
      state.1.evaluations ≤ next.1.evaluations) ∧
    ((state.1.inPhase .ready).card ≤ state.1.evaluations ∧
      state.1.evaluations ≤ state.1.entries.keys.card) ∧
    ((∀ thread, state.2 thread = none) →
      state.1.evaluations = ((askedTrees events).map formatExpr).toFinset.card) := by
  have shared := run.shared
  refine ⟨shared.agrees, fun later next goesOn => ?_, shared.evaluations_bounds,
    shared.evaluations_of_quiescent⟩
  have ordered := ExprCache.le_of_run goesOn
  exact ⟨fun _ _ => ordered.entries, ordered.evaluations⟩

end Invariant

/-- Two threads ask for a literal and for a negation that renders to it, one
after the other. -/
private theorem colliding_runs {literal magnitude : I64}
    (collide : formatExpr (.unaryOp .neg (.number magnitude)) = formatExpr (.number literal)) :
    ∃ (events : List (Fin 2 × CallEvent)) (state : _), SharedRuns events state ∧
      (1, .returned (.unaryOp .neg (.number magnitude)) (.ok (.fromInteger literal))) ∈ events ∧
      ∀ thread, state.2 thread = none := by
  have firstCall := (@SharedRuns.start (Fin 2) _).act 0 (@CallStep.began _ (.number literal))
    |>.act 0 (.acted (.entry (Prod.eta _).symm)) |>.act 0 (.acted (.cell rfl))
    |>.act 0 (.acted .countEvaluate) |>.act 0 (.acted .compute) |>.act 0 (.acted (.cell rfl))
    |>.act 0 (.acted (.cell rfl)) |>.act 0 (.acted (.cell rfl)) |>.act 0 (.returned rfl)
  have found : ∀ {cache : ExprCache},
      cache.entries = Finmap.insert (formatExpr (.number literal)) 0 ∅ →
      cache.entry (formatExpr (.unaryOp .neg (.number magnitude))) = (0, cache) := by
    intro cache filed
    refine ExprCache.entry_of_lookup ?_
    rw [collide, filed]
    exact Finmap.lookup_insert _
  have run := firstCall.act 1 (@CallStep.began _ (.unaryOp .neg (.number magnitude)))
    |>.act 1 (.acted (.entry (found rfl))) |>.act 1 (.acted (.cell rfl))
    |>.act 1 (.acted (.cell rfl)) |>.act 1 (.acted (.cell rfl)) |>.act 1 (.returned rfl)
  exact ⟨_, _, run, List.mem_append_right _ (List.mem_singleton_self _),
    Fin.forall_fin_two.mpr ⟨rfl, rfl⟩⟩

theorem sharedRuns_transparent_colliding :
    ∃ (events : List (Fin 2 × CallEvent)) (state : _), SharedRuns events state ∧
      (1, .returned (.unaryOp .neg (.number ⟨3, by decide, by decide⟩))
        (.ok (.fromInteger ⟨-3, by decide, by decide⟩))) ∈ events ∧
      state.1.evaluations = ((askedTrees events).map formatExpr).toFinset.card := by
  obtain ⟨events, state, run, answered, quiescent⟩ := @colliding_runs ⟨-3, by decide, by decide⟩
    ⟨3, by decide, by decide⟩ (by decide +kernel)
  exact ⟨events, state, run, answered, (sharedRuns_transparent run).2.2.2 quiescent⟩

end Proofhouse
