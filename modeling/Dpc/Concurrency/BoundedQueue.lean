namespace Dpc

/-- A queue that is never longer than its capacity. -/
structure BoundedQueue (α : Type) where
  capacity : Nat
  queue : List α
  shutdown : Bool
  positive : 0 < capacity
  fits : queue.length ≤ capacity

namespace BoundedQueue

variable {α : Type} {q q' : BoundedQueue α} {value : α}

def create (capacity : Nat) : BoundedQueue α where
  capacity := if capacity = 0 then 1 else capacity
  queue := []
  shutdown := false
  positive := by
    split
    · exact Nat.one_pos
    · rename_i h
      exact Nat.pos_of_ne_zero h
  fits := Nat.zero_le _

/-- The critical section of `push`, or none while the condition of its wait does not hold. -/
def push (q : BoundedQueue α) (value : α) : Option (Bool × BoundedQueue α) :=
  if q.shutdown then some (false, q)
  else if h : q.queue.length < q.capacity then
    some (true, { q with
      queue := q.queue ++ [value]
      fits := by rw [List.length_append]; exact h })
  else none

/-- The critical section of `pop`, or none while the condition of its wait does not hold. -/
def pop (q : BoundedQueue α) : Option (Option α × BoundedQueue α) :=
  match q.queue.head? with
  | some value =>
    some (some value, { q with
      queue := q.queue.tail
      fits := Nat.le_trans (by rw [List.length_tail]; exact Nat.sub_le _ _) q.fits })
  | none => if q.shutdown then some (none, q) else none

/-- The critical section of `shutdown`. -/
def setShutdown (q : BoundedQueue α) : BoundedQueue α := { q with shutdown := true }

theorem push_waits (h : q.push value = none) :
    q.shutdown = false ∧ q.queue.length = q.capacity := by
  unfold push at h
  split at h
  · cases h
  · rename_i hs
    split at h
    · cases h
    · rename_i hlen
      exact ⟨Bool.eq_false_iff.mpr hs, Nat.le_antisymm q.fits (Nat.le_of_not_lt hlen)⟩

theorem push_false (h : q.push value = some (false, q')) : q' = q ∧ q.shutdown = true := by
  unfold push at h
  split at h
  · rename_i hs
    cases h
    exact ⟨rfl, hs⟩
  · split at h
    · cases h
    · cases h

theorem push_true (h : q.push value = some (true, q')) :
    q.shutdown = false ∧ q.queue.length < q.capacity ∧ q'.queue = q.queue ++ [value] ∧
      q'.capacity = q.capacity ∧ q'.shutdown = false := by
  unfold push at h
  split at h
  · cases h
  · rename_i hs
    split at h
    · rename_i hlen
      cases h
      exact ⟨Bool.eq_false_iff.mpr hs, hlen, rfl, rfl, Bool.eq_false_iff.mpr hs⟩
    · cases h

theorem pop_waits (h : q.pop = none) : q.queue = [] ∧ q.shutdown = false := by
  unfold pop at h
  split at h
  · cases h
  · rename_i hempty
    split at h
    · cases h
    · rename_i hs
      exact ⟨List.head?_eq_none_iff.mp hempty, Bool.eq_false_iff.mpr hs⟩

theorem pop_none (h : q.pop = some (none, q')) : q' = q ∧ q.queue = [] ∧ q.shutdown = true := by
  unfold pop at h
  split at h
  · cases h
  · rename_i hempty
    split at h
    · rename_i hs
      cases h
      exact ⟨rfl, List.head?_eq_none_iff.mp hempty, hs⟩
    · cases h

theorem pop_some (h : q.pop = some (some value, q')) :
    q.queue = value :: q'.queue ∧ q'.capacity = q.capacity ∧ q'.shutdown = q.shutdown := by
  unfold pop at h
  split at h
  · rename_i hhead
    cases h
    obtain ⟨rest, hrest⟩ := List.head?_eq_some_iff.mp hhead
    exact ⟨by simp only [hrest, List.tail_cons], rfl, rfl⟩
  · split at h
    · cases h
    · cases h

end BoundedQueue

end Dpc
