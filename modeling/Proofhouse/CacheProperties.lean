import Proofhouse.Cache
import Proofhouse.FormatterCollisions
import Proofhouse.SyncProperties

/-!
# Invariants of the expression cache

The order every step moves a table along, the soundness of its cells, and the
handles by the phase of their cells.
-/

set_option autoImplicit false

namespace Proofhouse.ExprCache

/-- The tree's rendering is filed, and `handle` is its cell. -/
def Filed (cache : ExprCache) (expr : Expr) (handle : Nat) : Prop :=
  cache.entries.lookup (formatExpr expr) = some handle

def Ready (cache : ExprCache) (expr : Expr) : Prop :=
  ∃ handle, cache.Filed expr handle ∧ (cache.cells handle).state = .ready

/-- An entry once filed stays, its cell goes one way, and the counter never
falls. -/
structure Le (before after : ExprCache) : Prop where
  entries : ∀ {key handle}, before.entries.lookup key = some handle →
    after.entries.lookup key = some handle
  allocated : before.allocated ≤ after.allocated
  cells : ∀ {handle}, handle < before.allocated →
    OnceValue.Le (before.cells handle) (after.cells handle)
  evaluations : before.evaluations ≤ after.evaluations

theorem Le.refl (cache : ExprCache) : Le cache cache :=
  ⟨id, Nat.le_refl _, fun _ => .refl _, Nat.le_refl _⟩

theorem Le.trans {first middle last : ExprCache} (before : Le first middle)
    (after : Le middle last) : Le first last :=
  ⟨fun filed => after.entries (before.entries filed),
    Nat.le_trans before.allocated after.allocated,
    fun bounded => (before.cells bounded).trans
      (after.cells (Nat.lt_of_lt_of_le bounded before.allocated)),
    Nat.le_trans before.evaluations after.evaluations⟩

/-- Keys and handles correspond one to one, and a cell holds nothing but the
value of every tree that renders to its key. -/
structure Sound (cache : ExprCache) : Prop where
  bounded : ∀ {key handle}, cache.entries.lookup key = some handle → handle < cache.allocated
  injective : ∀ {key other handle}, cache.entries.lookup key = some handle →
    cache.entries.lookup other = some handle → key = other
  covered : ∀ {handle}, handle < cache.allocated →
    ∃ key, cache.entries.lookup key = some handle
  card : cache.entries.keys.card = cache.allocated
  offers : ∀ {expr handle}, cache.Filed expr handle →
    (cache.cells handle).Offers (evaluate expr)

theorem Ready.mono {before after : ExprCache} {expr : Expr} (ready : before.Ready expr)
    (sound : before.Sound) (ordered : before.Le after) : after.Ready expr := by
  obtain ⟨handle, filed, landed⟩ := ready
  exact ⟨handle, ordered.entries filed, (ordered.cells (sound.bounded filed)).ready landed⟩

theorem Ready.congr {cache : ExprCache} {expr other : Expr} (ready : cache.Ready expr)
    (same : formatExpr expr = formatExpr other) : cache.Ready other := by
  obtain ⟨handle, filed, landed⟩ := ready
  rw [Filed, same] at filed
  exact ⟨handle, filed, landed⟩

theorem Sound.slot_eq {cache : ExprCache} (sound : cache.Sound) {expr : Expr} {handle : Nat}
    (filed : cache.Filed expr handle) (landed : (cache.cells handle).state = .ready) :
    (cache.cells handle).slot = some (evaluate expr) := by
  have offers := sound.offers filed
  obtain ⟨value, held⟩ := Option.ne_none_iff_exists'.mp (offers.landed landed)
  rw [held, offers.only value held]

def inPhase (cache : ExprCache) (phase : Phase) : Finset Nat :=
  (Finset.range cache.allocated).filter fun handle => (cache.cells handle).state = phase

theorem mem_inPhase {cache : ExprCache} {phase : Phase} {handle : Nat} :
    handle ∈ cache.inPhase phase ↔
      handle < cache.allocated ∧ (cache.cells handle).state = phase := by
  rw [inPhase, Finset.mem_filter, Finset.mem_range]

theorem sound_new : Sound new where
  bounded filed := by cases filed
  injective filed := by cases filed
  covered bounded := absurd bounded (Nat.not_lt_zero _)
  card := rfl
  offers filed := by cases filed

/-!
## Lookups
-/

/-- What a lookup may do: find the key, or file it with an empty cell. -/
theorem entry_cases {cache cache' : ExprCache} {key : String} {handle : Nat}
    (entered : cache.entry key = (handle, cache')) :
    (cache.entries.lookup key = some handle ∧ cache' = cache) ∨
      (cache.entries.lookup key = none ∧ handle = cache.allocated ∧
        cache' =
          { cache with
            entries := cache.entries.insert key cache.allocated
            cells := Function.update cache.cells cache.allocated .new
            allocated := cache.allocated + 1 }) := by
  rw [entry] at entered
  cases found : cache.entries.lookup key with
  | some known =>
      rw [found] at entered
      cases entered
      exact .inl ⟨rfl, rfl⟩
  | none =>
      rw [found] at entered
      cases entered
      exact .inr ⟨rfl, rfl, rfl⟩

section Lookup

variable {cache cache' : ExprCache} {key : String} {handle : Nat}

theorem entry_of_lookup (filed : cache.entries.lookup key = some handle) :
    cache.entry key = (handle, cache) := by
  rw [entry, filed]

theorem entry_filed (entered : cache.entry key = (handle, cache')) :
    cache'.entries.lookup key = some handle := by
  rcases entry_cases entered with ⟨found, rfl⟩ | ⟨_, rfl, rfl⟩
  · exact found
  · exact Finmap.lookup_insert _

theorem entry_lookup (entered : cache.entry key = (handle, cache')) {other : String}
    {otherHandle : Nat} (filed : cache'.entries.lookup other = some otherHandle) :
    cache.entries.lookup other = some otherHandle ∨ other = key := by
  rcases entry_cases entered with ⟨_, rfl⟩ | ⟨_, _, rfl⟩
  · exact .inl filed
  · by_cases same : other = key
    · exact .inr same
    · rw [Finmap.lookup_insert_of_ne _ same] at filed
      exact .inl filed

/-- A lookup files nothing but an empty cell. -/
theorem claimed_of_entry (entered : cache.entry key = (handle, cache')) {name : String}
    {other : Nat} (filed : cache'.entries.lookup name = some other)
    (claimed : (cache'.cells other).state ≠ .empty) :
    cache.entries.lookup name = some other ∧ cache'.cells other = cache.cells other := by
  rcases entry_cases entered with ⟨_, rfl⟩ | ⟨missing, _, rfl⟩
  · exact ⟨filed, rfl⟩
  · by_cases fresh : other = cache.allocated
    · dsimp only at claimed
      rw [fresh, Function.update_self] at claimed
      exact absurd rfl claimed
    · refine ⟨?_, Function.update_of_ne fresh ..⟩
      rcases entry_lookup entered filed with known | rfl
      · exact known
      · exact absurd (Option.some.inj (filed.symm.trans (Finmap.lookup_insert _))) fresh

theorem ready_of_entry (entered : cache.entry key = (handle, cache')) {expr : Expr}
    (ready : cache'.Ready expr) : cache.Ready expr := by
  obtain ⟨other, filed, landed⟩ := ready
  obtain ⟨known, same⟩ := claimed_of_entry entered filed (by rw [landed]; decide)
  exact ⟨other, known, same ▸ landed⟩

theorem entry_le (entered : cache.entry key = (handle, cache')) : Le cache cache' := by
  rcases entry_cases entered with ⟨_, rfl⟩ | ⟨missing, _, rfl⟩
  · exact .refl _
  · refine ⟨fun {other _} filed => ?_, Nat.le_succ _, fun {other} bounded => ?_, Nat.le_refl _⟩
    · have different : other ≠ key := by
        rintro rfl
        rw [missing] at filed
        cases filed
      rw [← filed]
      exact Finmap.lookup_insert_of_ne _ different
    · have different : other ≠ cache.allocated := Nat.ne_of_lt bounded
      dsimp only
      rw [Function.update_of_ne different]
      exact .refl _

theorem Sound.entry (sound : cache.Sound) (entered : cache.entry key = (handle, cache')) :
    cache'.Sound := by
  rcases entry_cases entered with ⟨_, rfl⟩ | ⟨missing, _, rfl⟩
  · exact sound
  have lookup : ∀ other otherHandle,
      (cache.entries.insert key cache.allocated).lookup other = some otherHandle ↔
        (other = key ∧ otherHandle = cache.allocated) ∨
          (other ≠ key ∧ cache.entries.lookup other = some otherHandle) := by
    intro other otherHandle
    by_cases same : other = key
    · subst same
      simp [eq_comm]
    · simp [same, Finmap.lookup_insert_of_ne]
  constructor
  · intro other otherHandle filed
    dsimp only at filed ⊢
    rcases (lookup other otherHandle).mp filed with ⟨_, rfl⟩ | ⟨_, filed⟩
    · exact Nat.lt_succ_self _
    · exact Nat.lt_succ_of_lt (sound.bounded filed)
  · intro first second shared filedFirst filedSecond
    rcases (lookup first shared).mp filedFirst with ⟨rfl, rfl⟩ | ⟨_, knownFirst⟩
    · rcases (lookup second _).mp filedSecond with ⟨same, _⟩ | ⟨_, knownSecond⟩
      · exact same.symm
      · exact absurd (sound.bounded knownSecond) (Nat.lt_irrefl _)
    · rcases (lookup second shared).mp filedSecond with ⟨rfl, rfl⟩ | ⟨_, knownSecond⟩
      · exact absurd (sound.bounded knownFirst) (Nat.lt_irrefl _)
      · exact sound.injective knownFirst knownSecond
  · intro other bounded
    rcases Nat.lt_succ_iff_lt_or_eq.mp bounded with bounded | rfl
    · obtain ⟨known, filed⟩ := sound.covered bounded
      refine ⟨known, (lookup known other).mpr (.inr ⟨?_, filed⟩)⟩
      rintro rfl
      rw [missing] at filed
      cases filed
    · exact ⟨key, (lookup key _).mpr (.inl ⟨rfl, rfl⟩)⟩
  · have keys : (cache.entries.insert key cache.allocated).keys =
        insert key cache.entries.keys := by
      ext other
      simp [Finmap.mem_keys, Finmap.mem_insert]
    have unfiled : key ∉ cache.entries.keys := by
      rw [Finmap.mem_keys]
      exact Finmap.lookup_eq_none.mp missing
    dsimp only
    rw [keys, Finset.card_insert_of_notMem unfiled, sound.card]
  · intro expr otherHandle filed
    dsimp only
    rcases (lookup _ _).mp filed with ⟨_, rfl⟩ | ⟨_, filed⟩
    · rw [Function.update_self]
      exact OnceValue.offers_new _
    · rw [Function.update_of_ne (Nat.ne_of_lt (sound.bounded filed))]
      exact sound.offers filed

theorem inPhase_entry (entered : cache.entry key = (handle, cache')) {phase : Phase}
    (claimed : phase ≠ .empty) : cache'.inPhase phase = cache.inPhase phase := by
  rcases entry_cases entered with ⟨_, rfl⟩ | ⟨_, _, rfl⟩
  · rfl
  · ext other
    simp only [mem_inPhase]
    by_cases same : other = cache.allocated
    · subst same
      simpa [OnceValue.new] using claimed.symm
    · rw [Function.update_of_ne same]
      constructor
      · intro member
        obtain ⟨bounded, inPhase⟩ := member
        exact ⟨by omega, inPhase⟩
      · intro member
        obtain ⟨bounded, inPhase⟩ := member
        exact ⟨by omega, inPhase⟩

end Lookup

/-!
## Steps on one cell
-/

section Cells

variable {cache : ExprCache} {handle : Nat} {cell : OnceValue Outcome}

@[simp] theorem setCell_allocated : (cache.setCell handle cell).allocated = cache.allocated := rfl

@[simp] theorem setCell_evaluations :
    (cache.setCell handle cell).evaluations = cache.evaluations := rfl

theorem setCell_cells (other : Nat) :
    (cache.setCell handle cell).cells other = if other = handle then cell else cache.cells other :=
  Function.update_apply ..

@[simp] theorem setCell_cells_self : (cache.setCell handle cell).cells handle = cell :=
  Function.update_self ..

theorem setCell_le (ordered : OnceValue.Le (cache.cells handle) cell) :
    Le cache (cache.setCell handle cell) := by
  refine ⟨id, Nat.le_refl _, fun {other} _ => ?_, Nat.le_refl _⟩
  rw [setCell_cells]
  split
  · next same => exact same ▸ ordered
  · exact .refl _

theorem Sound.setCell (sound : cache.Sound) {expr : Expr} (filed : cache.Filed expr handle)
    (offers : cell.Offers (evaluate expr)) : (cache.setCell handle cell).Sound := by
  refine ⟨sound.bounded, sound.injective, sound.covered, sound.card, ?_⟩
  intro other otherHandle otherFiled
  rw [setCell_cells]
  split
  · next same =>
    subst same
    rw [evaluate_congr_reading (reading_eq_of_formatExpr_eq (sound.injective otherFiled filed))]
    exact offers
  · exact sound.offers otherFiled

theorem inPhase_setCell (bounded : handle < cache.allocated) (phase : Phase) :
    (cache.setCell handle cell).inPhase phase =
      if cell.state = phase then insert handle (cache.inPhase phase)
      else (cache.inPhase phase).erase handle := by
  ext other
  rw [mem_inPhase, setCell_cells, setCell_allocated]
  split
  · next same =>
    subst same
    split <;> simp_all
  · next different =>
    split <;> simp [different, mem_inPhase]

theorem inPhase_setCell_of_same (bounded : handle < cache.allocated)
    (same : cell.state = (cache.cells handle).state) (phase : Phase) :
    (cache.setCell handle cell).inPhase phase = cache.inPhase phase := by
  rw [inPhase_setCell bounded, same]
  split
  · next inPhase => exact Finset.insert_eq_of_mem (mem_inPhase.mpr ⟨bounded, inPhase⟩)
  · next elsewhere =>
    exact Finset.erase_eq_of_notMem fun member => elsewhere (mem_inPhase.mp member).2

end Cells

theorem countEvaluation_le (cache : ExprCache) : Le cache cache.countEvaluation :=
  ⟨id, Nat.le_refl _, fun _ => .refl _, Nat.le_succ _⟩

theorem Sound.countEvaluation {cache : ExprCache} (sound : cache.Sound) :
    cache.countEvaluation.Sound :=
  ⟨sound.bounded, sound.injective, sound.covered, sound.card, sound.offers⟩

end Proofhouse.ExprCache
