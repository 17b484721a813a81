import Proofhouse.CacheProperties

/-!
# The cell behind a key

The table as one cell for every key. A lookup moves none of these cells, and a
step on one of them leaves those of the other keys alone.
-/

set_option autoImplicit false

namespace Proofhouse.ExprCache

/-- Every handle filed is of a cell given out, and no two keys share one. -/
structure Indexed (cache : ExprCache) : Prop where
  bounded : ∀ {key handle}, cache.entries.lookup key = some handle → handle < cache.allocated
  injective : ∀ {key other handle}, cache.entries.lookup key = some handle →
    cache.entries.lookup other = some handle → key = other

/-- The cell behind a key. A key not filed yet is going to have an empty one. -/
def cellOf (cache : ExprCache) (key : String) : OnceValue Outcome :=
  (cache.entries.lookup key).elim .new cache.cells

variable {cache cache' : ExprCache} {key other : String} {handle : Nat}

theorem indexed_new : Indexed new where
  bounded filed := by cases filed
  injective filed := by cases filed

theorem cellOf_of_lookup (filed : cache.entries.lookup key = some handle) :
    cache.cellOf key = cache.cells handle := by
  rw [cellOf, filed]
  rfl

theorem Indexed.entry (indexed : cache.Indexed) (entered : cache.entry key = (handle, cache')) :
    cache'.Indexed := by
  rcases entry_cases entered with ⟨_, rfl⟩ | ⟨_, rfl, rfl⟩
  · exact indexed
  have fresh : ∀ {name}, cache.entries.lookup name ≠ some cache.allocated :=
    fun known => absurd (indexed.bounded known) (Nat.lt_irrefl _)
  refine ⟨fun {name named} filed => ?_, fun {first second shared} onFirst onSecond => ?_⟩
  · by_cases same : name = key
    · subst same
      cases filed.symm.trans (Finmap.lookup_insert _)
      exact Nat.lt_succ_self _
    · exact Nat.lt_succ_of_lt
        (indexed.bounded ((Finmap.lookup_insert_of_ne _ same).symm.trans filed))
  · dsimp only at onFirst onSecond
    by_cases firstSame : first = key <;> by_cases secondSame : second = key
    · exact firstSame.trans secondSame.symm
    · subst firstSame
      cases onFirst.symm.trans (Finmap.lookup_insert _)
      exact absurd ((Finmap.lookup_insert_of_ne _ secondSame).symm.trans onSecond) fresh
    · subst secondSame
      cases onSecond.symm.trans (Finmap.lookup_insert _)
      exact absurd ((Finmap.lookup_insert_of_ne _ firstSame).symm.trans onFirst) fresh
    · rw [Finmap.lookup_insert_of_ne _ firstSame] at onFirst
      rw [Finmap.lookup_insert_of_ne _ secondSame] at onSecond
      exact indexed.injective onFirst onSecond

/-- A lookup leaves the cell of every key as it was, filed or not. -/
theorem cellOf_entry (indexed : cache.Indexed) (entered : cache.entry key = (handle, cache'))
    (other : String) : cache'.cellOf other = cache.cellOf other := by
  rcases entry_cases entered with ⟨_, rfl⟩ | ⟨missing, rfl, rfl⟩
  · rfl
  unfold cellOf
  dsimp only
  by_cases same : other = key
  · subst same
    rw [Finmap.lookup_insert, missing]
    exact Function.update_self ..
  · rw [Finmap.lookup_insert_of_ne _ same]
    cases filed : cache.entries.lookup other with
    | none => rfl
    | some known => exact Function.update_of_ne (Nat.ne_of_lt (indexed.bounded filed)) ..

theorem cellOf_setCell_self (filed : cache.entries.lookup key = some handle)
    (cell : OnceValue Outcome) : (cache.setCell handle cell).cellOf key = cell :=
  (@cellOf_of_lookup (cache.setCell handle cell) key handle filed).trans setCell_cells_self

theorem cellOf_setCell_of_ne (indexed : cache.Indexed)
    (filed : cache.entries.lookup key = some handle) (different : other ≠ key)
    (cell : OnceValue Outcome) : (cache.setCell handle cell).cellOf other = cache.cellOf other := by
  unfold cellOf
  change (cache.entries.lookup other).elim _ _ = _
  cases found : cache.entries.lookup other with
  | none => rfl
  | some known =>
      refine Function.update_of_ne (fun same => different ?_) ..
      subst same
      exact indexed.injective found filed

theorem Sound.indexed (sound : cache.Sound) : cache.Indexed :=
  ⟨sound.bounded, sound.injective⟩

theorem Le.cellOf_not_empty (ordered : Le cache cache') (indexed : cache.Indexed)
    (claimed : (cache.cellOf key).state ≠ .empty) : (cache'.cellOf key).state ≠ .empty := by
  cases filed : cache.entries.lookup key with
  | none =>
      rw [cellOf, filed] at claimed
      exact absurd rfl claimed
  | some handle =>
      rw [cellOf_of_lookup filed] at claimed
      rw [cellOf_of_lookup (ordered.entries filed)]
      exact (ordered.cells (indexed.bounded filed)).not_empty claimed

end Proofhouse.ExprCache
