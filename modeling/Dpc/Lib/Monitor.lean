import Mathlib.Data.List.Basic

/-! Threads that wait at a condition variable. -/

namespace Monitor

/-- A thread is busy elsewhere, waits, or was woken and has to test its condition again. -/
inductive Seat (α : Type) where
  | busy (a : α)
  | waiting
  | woken
  deriving DecidableEq, Repr

namespace Seat

variable {α : Type}

def isWoken : Seat α → Bool
  | .woken => true
  | _ => false

def notified : Seat α → Seat α
  | .waiting => .woken
  | x => x

theorem busy_ne_waiting (a : α) : busy a ≠ waiting := fun h => by cases h

theorem woken_ne_waiting : (woken : Seat α) ≠ waiting := fun h => by cases h

end Seat

variable {α : Type} {l l' : List (Seat α)} {x y : Seat α} {a b : α} {i j n : Nat}

/-- One of those that wait is woken, if there is any. -/
inductive NotifyOne : List (Seat α) → List (Seat α) → Prop where
  | nobody {l : List (Seat α)} (h : .waiting ∉ l) : NotifyOne l l
  | one {l : List (Seat α)} {i : Nat} (h : l[i]? = some .waiting) : NotifyOne l (l.set i .woken)

def notifyAll (l : List (Seat α)) : List (Seat α) := l.map Seat.notified

/-- No wake-up is lost: while a thread waits, a woken one is under way for each of `n` things
that there are to be had. -/
def Covered (n : Nat) (l : List (Seat α)) : Prop := .waiting ∈ l → n ≤ l.countP Seat.isWoken

theorem countP_move (p : Seat α → Bool) (h : l[i]? = some x) :
    (l.set i y).countP p + (if p x then 1 else 0) = l.countP p + if p y then 1 else 0 := by
  obtain ⟨hi, rfl⟩ := List.getElem?_eq_some_iff.mp h
  have hpos : (if p l[i] then 1 else 0) ≤ l.countP p := by
    split
    · rename_i hp
      exact List.countP_pos_iff.mpr ⟨_, List.getElem_mem hi, hp⟩
    · exact Nat.zero_le _
  rw [List.countP_set hi]
  omega

theorem getElem?_move (h : l[i]? = some x) : (l.set i y)[j]? = if j = i then some y else l[j]? := by
  obtain ⟨hi, _⟩ := List.getElem?_eq_some_iff.mp h
  by_cases hj : j = i
  · rw [hj, List.getElem?_set_self hi, if_pos rfl]
  · rw [List.getElem?_set_ne (Ne.symm hj), if_neg hj]

theorem waiting_of_move (hy : y ≠ .waiting) (h : .waiting ∈ l.set i y) : .waiting ∈ l := by
  rcases List.mem_or_eq_of_mem_set h with h | h
  · exact h
  · exact absurd h.symm hy

namespace Covered

theorem mono {m : Nat} (h : Covered n l) (hm : m ≤ n) : Covered m l :=
  fun hw => Nat.le_trans hm (h hw)

theorem nothing : Covered 0 l := fun _ => Nat.zero_le _

theorem of_none (h : .waiting ∉ l) : Covered n l := fun hw => absurd hw h

/-- A thread that does not wait takes one of the things, or finds that it has to go. -/
theorem take (h : Covered n l) (hi : l[i]? = some x) : Covered (n - 1) (l.set i (.busy b)) := by
  intro hw
  have hn := h (waiting_of_move (Seat.busy_ne_waiting b) hw)
  have hcount := countP_move (y := .busy b) Seat.isWoken hi
  cases x with
  | busy a =>
    simp only [Seat.isWoken, Bool.false_eq_true, if_false] at hcount
    omega
  | waiting =>
    simp only [Seat.isWoken, Bool.false_eq_true, if_false] at hcount
    omega
  | woken =>
    simp only [Seat.isWoken, Bool.false_eq_true, if_false, if_true] at hcount
    omega

/-- A thread that is busy goes on to something else. -/
theorem busy (h : Covered n l) (hi : l[i]? = some (.busy a)) : Covered n (l.set i (.busy b)) := by
  intro hw
  have hn := h (waiting_of_move (Seat.busy_ne_waiting b) hw)
  have hcount := countP_move (y := .busy b) Seat.isWoken hi
  simp only [Seat.isWoken, Bool.false_eq_true, if_false, Nat.add_zero] at hcount
  rwa [hcount]

/-- A thread wakes up for no reason. -/
theorem wake (h : Covered n l) (hi : l[i]? = some .waiting) : Covered n (l.set i .woken) := by
  intro _
  have hn := h (List.mem_of_getElem? hi)
  have hcount := countP_move (y := .woken) Seat.isWoken hi
  simp only [Seat.isWoken, Bool.false_eq_true, if_false, if_true] at hcount
  omega

/-- There is one thing more, and one thread is notified. -/
theorem notifyOne (h : Covered n l) (hn : NotifyOne l l') : Covered (n + 1) l' := by
  cases hn with
  | nobody hnone => exact of_none hnone
  | one hi =>
    intro _
    have hle := h (List.mem_of_getElem? hi)
    have hcount := countP_move (y := .woken) Seat.isWoken hi
    simp only [Seat.isWoken, Bool.false_eq_true, if_false, if_true] at hcount
    omega

theorem append (h : Covered n l) : Covered n (l ++ [.busy a]) := by
  intro hw
  rw [List.countP_append]
  refine Nat.le_trans (h ?_) (Nat.le_add_right _ _)
  rcases List.mem_append.mp hw with hw | hw
  · exact hw
  · exact absurd (List.mem_singleton.mp hw).symm (Seat.busy_ne_waiting a)

theorem exists_woken (h : Covered n l) (hn : 0 < n) (hw : .waiting ∈ l) : .woken ∈ l := by
  obtain ⟨x, hx, hp⟩ := List.countP_pos_iff.mp (Nat.lt_of_lt_of_le hn (h hw))
  cases x with
  | busy a => cases hp
  | waiting => cases hp
  | woken => exact hx

end Covered

theorem NotifyOne.busy (h : NotifyOne l l') : l'[j]? = some (.busy a) ↔ l[j]? = some (.busy a) := by
  cases h with
  | nobody _ => exact Iff.rfl
  | one hi =>
    rw [getElem?_move hi]
    split
    · rename_i hj
      rw [hj, hi]
      simp
    · exact Iff.rfl

theorem NotifyOne.length (h : NotifyOne l l') : l'.length = l.length := by
  cases h with
  | nobody _ => rfl
  | one _ => exact List.length_set

theorem NotifyOne.waiting (h : NotifyOne l l') (hw : .waiting ∈ l') : .waiting ∈ l := by
  cases h with
  | nobody _ => exact hw
  | one _ => exact waiting_of_move Seat.woken_ne_waiting hw

theorem notifyAll_busy : (notifyAll l)[j]? = some (.busy a) ↔ l[j]? = some (.busy a) := by
  rw [notifyAll, List.getElem?_map]
  cases hl : l[j]? with
  | none => simp
  | some x => cases x <;> simp [Seat.notified]

theorem notifyAll_waiting : .waiting ∉ notifyAll l := by
  intro h
  obtain ⟨x, _, hx⟩ := List.mem_map.mp h
  cases x with
  | busy a => cases hx
  | waiting => cases hx
  | woken => cases hx

/-- Each thread counts for what it still has to do where it is. -/
def load (w : Seat α → Nat) : List (Seat α) → Nat
  | [] => 0
  | x :: l => w x + load w l

variable {w : Seat α → Nat}

theorem load_move (h : l[i]? = some x) : load w (l.set i y) + w x = load w l + w y := by
  induction l generalizing i with
  | nil => cases h
  | cons z l ih =>
    cases i with
    | zero =>
      cases h
      simp only [List.set_cons_zero, load]
      omega
    | succ i =>
      have hl := ih (i := i) h
      simp only [List.set_cons_succ, load]
      omega

theorem load_append : load w (l ++ [x]) = load w l + w x := by
  induction l with
  | nil => simp [load]
  | cons z l ih =>
    simp only [List.cons_append, load, ih]
    omega

theorem load_replicate : load w (List.replicate n x) = n * w x := by
  induction n with
  | zero => simp [load]
  | succ n ih => rw [List.replicate_succ, load, ih, Nat.succ_mul, Nat.add_comm]

theorem NotifyOne.exists (l : List (Seat α)) : ∃ l', NotifyOne l l' := by
  by_cases hw : .waiting ∈ l
  · obtain ⟨i, hi⟩ := List.getElem?_of_mem hw
    exact ⟨_, .one hi⟩
  · exact ⟨l, .nobody hw⟩

/-- Who is woken has one thing more to do. -/
theorem NotifyOne.load_le (hw : w .woken ≤ w .waiting + 1) (h : NotifyOne l l') :
    load w l' ≤ load w l + 1 := by
  cases h with
  | nobody _ => exact Nat.le_succ _
  | one hi =>
    have hmove := load_move (w := w) (y := .woken) hi
    omega

theorem load_notifyAll (hw : w .woken ≤ w .waiting + 1) :
    load w (notifyAll l) ≤ load w l + l.length := by
  induction l with
  | nil => exact Nat.le_refl _
  | cons z l ih =>
    have hz : w z.notified ≤ w z + 1 := by
      cases z with
      | busy a => exact Nat.le_succ _
      | waiting => exact hw
      | woken => exact Nat.le_succ _
    simp only [notifyAll, List.map_cons, load, List.length_cons] at ih ⊢
    omega

end Monitor
