import Proofhouse.ConcurrentProperties

/-!
# Claims and counts

Every claimed cell is held by exactly one request and is counted once. Both
balances are stated for one request at a time, against whatever else the table
serves.
-/

set_option autoImplicit false

namespace Proofhouse

def ExprCache.started (cache : ExprCache) : Nat :=
  (cache.inPhase .initializing).card + (cache.inPhase .ready).card

/-- The claimed cells that wait for their publication. -/
def ExprCache.claimed (cache : ExprCache) : Multiset Nat :=
  (cache.inPhase .initializing).val

theorem ExprCache.card_claimed_add_ready (cache : ExprCache) :
    cache.claimed.card + (cache.inPhase .ready).card = cache.started := rfl

theorem ExprCache.started_le (cache : ExprCache) : cache.started ≤ cache.allocated := by
  have apart : Disjoint (cache.inPhase .initializing) (cache.inPhase .ready) := by
    rw [Finset.disjoint_left]
    intro handle claimed ready
    cases (mem_inPhase.mp claimed).2.symm.trans (mem_inPhase.mp ready).2
  rw [started, ← Finset.card_union_of_disjoint apart, ← Finset.card_range cache.allocated]
  refine Finset.card_le_card fun handle member => ?_
  rcases Finset.mem_union.mp member with member | member
  · exact Finset.mem_range.mpr (mem_inPhase.mp member).1
  · exact Finset.mem_range.mpr (mem_inPhase.mp member).1

namespace ExprCache

variable {cache : ExprCache} {handle : Nat} {cell : OnceValue Outcome}

theorem claim_balance (bounded : handle < cache.allocated)
    (empty : (cache.cells handle).state = .empty) (claims : cell.state = .initializing) :
    (cache.setCell handle cell).claimed = {handle} + cache.claimed ∧
      (cache.setCell handle cell).started = cache.started + 1 := by
  have notClaimed : handle ∉ cache.inPhase .initializing := fun member => by
    have phase := (mem_inPhase.mp member).2
    rw [empty] at phase
    cases phase
  have notReady : handle ∉ cache.inPhase .ready := fun member => by
    have phase := (mem_inPhase.mp member).2
    rw [empty] at phase
    cases phase
  have gains := @inPhase_setCell cache handle cell bounded .initializing
  have keeps := @inPhase_setCell cache handle cell bounded .ready
  rw [if_pos claims] at gains
  rw [if_neg (by simp [claims]), Finset.erase_eq_of_notMem notReady] at keeps
  constructor
  · rw [claimed, gains, Finset.insert_val_of_notMem notClaimed, Multiset.singleton_add]
    rfl
  · rw [started, gains, keeps, Finset.card_insert_of_notMem notClaimed, started]
    omega

theorem publish_balance (bounded : handle < cache.allocated)
    (claims : (cache.cells handle).state = .initializing) (publishes : cell.state = .ready) :
    {handle} + (cache.setCell handle cell).claimed = cache.claimed ∧
      (cache.setCell handle cell).started = cache.started := by
  have isClaimed : handle ∈ cache.inPhase .initializing := mem_inPhase.mpr ⟨bounded, claims⟩
  have notReady : handle ∉ cache.inPhase .ready := fun member => by
    have phase := (mem_inPhase.mp member).2
    rw [claims] at phase
    cases phase
  have loses := @inPhase_setCell cache handle cell bounded .initializing
  have gains := @inPhase_setCell cache handle cell bounded .ready
  rw [if_neg (by simp [publishes])] at loses
  rw [if_pos publishes] at gains
  constructor
  · rw [claimed, loses, Finset.erase_val, Multiset.singleton_add,
      Multiset.cons_erase (Finset.mem_def.mp isClaimed)]
    rfl
  · have positive := Finset.card_pos.mpr ⟨handle, isClaimed⟩
    rw [started, loses, gains, Finset.card_erase_of_mem isClaimed,
      Finset.card_insert_of_notMem notReady, started]
    omega

theorem same_balance (bounded : handle < cache.allocated)
    (same : cell.state = (cache.cells handle).state) :
    (cache.setCell handle cell).claimed = cache.claimed ∧
      (cache.setCell handle cell).started = cache.started := by
  simp only [claimed, started, inPhase_setCell_of_same bounded same, and_self]

/-- With every claim published and counted, and every entry a ready one of these
trees, the counter tells their renderings. -/
theorem Sound.evaluations_eq (sound : cache.Sound) {trees : List Expr}
    (unclaimed : cache.claimed = 0) (counts : cache.evaluations = cache.started)
    (asked : ∀ key handle, cache.entries.lookup key = some handle →
      ∃ tree ∈ trees, formatExpr tree = key)
    (ready : ∀ tree ∈ trees, cache.Ready tree) :
    cache.evaluations = (trees.map formatExpr).toFinset.card := by
  have landed : cache.inPhase .ready = Finset.range cache.allocated := by
    ext handle
    rw [mem_inPhase, Finset.mem_range, and_iff_left_iff_imp]
    intro bounded
    obtain ⟨key, filed⟩ := sound.covered bounded
    obtain ⟨tree, member, rfl⟩ := asked key handle filed
    obtain ⟨other, otherFiled, landed⟩ := ready tree member
    cases filed.symm.trans otherFiled
    exact landed
  have keys : cache.entries.keys = (trees.map formatExpr).toFinset := by
    ext key
    rw [Finmap.mem_keys, Finmap.mem_iff, List.mem_toFinset, List.mem_map]
    constructor
    · intro present
      obtain ⟨handle, filed⟩ := present
      exact asked key handle filed
    · intro rendered
      obtain ⟨tree, member, rfl⟩ := rendered
      obtain ⟨handle, filed, _⟩ := ready tree member
      exact ⟨handle, filed⟩
  have started := cache.card_claimed_add_ready
  rw [unclaimed, landed, Finset.card_range, ← sound.card, keys] at started
  rw [counts, ← started]
  exact Nat.zero_add _

end ExprCache

namespace Process

variable {cache cache' : ExprCache} {process process' : Process}

/-- What a step adds to the claims of its request it adds to the claimed cells,
and what it adds to the started cells it counts or leaves for the request to
count. -/
structure Balanced (cache : ExprCache) (process : Process) (cache' : ExprCache)
    (process' : Process) : Prop where
  claims : process'.holding + cache.claimed = process.holding + cache'.claimed
  counts : cache'.evaluations + process'.uncounted + cache.started =
    cache.evaluations + process.uncounted + cache'.started

theorem Balanced.frame (balanced : Balanced cache process cache' process') (held : Multiset Nat)
    (pending : Nat) {outer outer' : Process}
    (holding : outer.holding = held + process.holding)
    (holding' : outer'.holding = held + process'.holding)
    (uncounted : outer.uncounted = pending + process.uncounted)
    (uncounted' : outer'.uncounted = pending + process'.uncounted) :
    Balanced cache outer cache' outer' := by
  have counts := balanced.counts
  constructor
  · rw [holding, holding', add_assoc, balanced.claims, add_assoc]
  · omega

theorem holding_cell {ask : Ask} {handle : Nat} {point : OnceValue.Filling Outcome} :
    (cell ask handle point).holding = if point.Holds then {handle} else 0 := rfl

theorem uncounted_cell {ask : Ask} {handle : Nat} {point : OnceValue.Filling Outcome}
    (elsewhere : point ≠ .initializing) : (cell ask handle point).uncounted = 0 := by
  cases point with
  | initializing => exact absurd rfl elsewhere
  | claiming | loading | copying | duplicating | storing | publishing | returned => rfl

private theorem balanced_cell {ask : Ask} {handle : Nat} {point point' : OnceValue.Filling Outcome}
    {cell' : OnceValue Outcome}
    (advances : OnceValue.Advances (cache.cells handle) point cell' point')
    (bounded : handle < cache.allocated)
    (held : point.Holds → (cache.cells handle).state = .initializing) :
    Balanced cache (.cell ask handle point) (cache.setCell handle cell')
      (.cell ask handle point') := by
  rcases advances.claims with ⟨rfl, rfl, empty, claims⟩ | ⟨value, rfl, rfl, publishes⟩ |
    ⟨source, target, holds, same⟩
  · obtain ⟨claims, counts⟩ := ExprCache.claim_balance bounded empty claims
    refine ⟨?_, ?_⟩
    · simp [claims, holding_cell, OnceValue.Filling.Holds]
    · rw [counts]
      simp only [uncounted, ExprCache.setCell_evaluations]
      omega
  · obtain ⟨claims, counts⟩ := ExprCache.publish_balance bounded (held trivial) publishes
    refine ⟨?_, ?_⟩
    · simp [← claims, holding_cell, OnceValue.Filling.Holds]
    · rw [counts]
      rfl
  · obtain ⟨claims, counts⟩ := ExprCache.same_balance bounded same
    refine ⟨?_, ?_⟩
    · rw [claims, holding_cell, holding_cell]
      simp only [holds]
    · rw [counts, uncounted_cell source, uncounted_cell target]
      rfl

theorem Step.balanced {action : Action} (taken : Step cache process action cache' process')
    (sound : cache.Sound) (fits : process.Fits cache) (held : process.holding ≤ cache.claimed) :
    Balanced cache process cache' process' := by
  induction taken with
  | entry entered =>
      have claims := @ExprCache.inPhase_entry _ _ _ _ entered .initializing (by decide)
      have ready := @ExprCache.inPhase_entry _ _ _ _ entered .ready (by decide)
      have evaluations : ∀ {key handle cache'}, cache.entry key = (handle, cache') →
          cache'.evaluations = cache.evaluations := by
        intro key handle cache' entered
        rcases ExprCache.entry_cases entered with ⟨_, rfl⟩ | ⟨_, _, rfl⟩ <;> rfl
      refine ⟨?_, ?_⟩
      · simp only [ExprCache.claimed, claims]
        rfl
      · simp only [ExprCache.started, claims, ready, evaluations entered]
        rfl
  | cell advances =>
      refine balanced_cell (OnceValue.advances_of_advance advances) (sound.bounded fits.1)
        fun holds => ?_
      rw [holding_cell, if_pos holds, Multiset.singleton_le] at held
      exact (ExprCache.mem_inPhase.mp (Finset.mem_def.mpr held)).2
  | countEvaluate | countShared =>
      refine ⟨rfl, ?_⟩
      simp only [uncounted, ExprCache.countEvaluation]
      exact congrArg (· + _) (by omega)
  | compute => exact ⟨rfl, rfl⟩
  | spawn => exact ⟨by simp [holding], by simp [uncounted]⟩
  | @worker _ _ _ handle worker own _ _ worker' taken ih =>
      obtain ⟨_, _, _, workerFits, _⟩ := fits
      have inner := ih workerFits (le_trans (by
        rw [holding, add_left_comm]
        exact Multiset.le_add_right _ _) held)
      exact inner.frame ({handle} + own.holding) own.uncounted
        (by rw [holding, add_assoc, add_comm worker.holding])
        (by rw [holding, add_assoc, add_comm worker'.holding])
        (Nat.add_comm _ _) (Nat.add_comm _ _)
  | @own _ _ _ handle worker own _ _ own' taken ih =>
      obtain ⟨_, _, _, _, ownFits⟩ := fits
      have inner := ih ownFits (le_trans (by
        rw [holding, ← add_assoc]
        exact Multiset.le_add_left _ _) held)
      exact inner.frame ({handle} + worker.holding) worker.uncounted
        (by rw [holding, add_assoc]) (by rw [holding, add_assoc]) rfl rfl
  | join workerDone ownDone =>
      obtain ⟨workerValue, workerDone⟩ := Option.isSome_iff_exists.mp workerDone
      obtain ⟨ownValue, ownDone⟩ := Option.isSome_iff_exists.mp ownDone
      have workerHolds := holding_of_result workerDone
      have ownHolds := holding_of_result ownDone
      refine ⟨?_, ?_⟩
      · simp only [holding, workerHolds.1, ownHolds.1, add_zero]
      · simp only [uncounted, workerHolds.2, ownHolds.2]
  | @left _ _ _ handle reader _ _ reader' taken ih =>
      have inner := ih fits.2.2 (le_trans (Multiset.le_add_left _ _) held)
      exact inner.frame {handle} 0 rfl rfl (Nat.zero_add _).symm
        (Nat.zero_add _).symm
  | @right _ _ _ handle _ reader _ _ reader' taken ih =>
      have inner := ih fits.2.2.2 (le_trans (Multiset.le_add_left _ _) held)
      exact inner.frame {handle} 0 rfl rfl (Nat.zero_add _).symm
        (Nat.zero_add _).symm
  | leftRead returned | rightRead returned | leftFailed returned | rightFailed returned =>
      have finished := holding_of_result returned
      refine ⟨?_, ?_⟩
      · simp [holding, finished.1, OnceValue.Filling.Holds]
      · simp [uncounted, finished.2]

end Process

end Proofhouse
