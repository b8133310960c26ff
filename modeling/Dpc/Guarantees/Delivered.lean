import Dpc.Concurrency.ThreadPool
import Mathlib.Data.List.Nodup

namespace Dpc
open Monitor

def Closing.isFlagged : Closing → Bool
  | .serving => false
  | .stopped => false
  | _ => true

namespace ThreadPool

variable {workers capacity : Nat} {events new : List Event} {s t : ThreadPool} {i j : Nat}

/-- What holds between any two steps. -/
structure Orderly (capacity : Nat) (events : List Event) (s : ThreadPool) : Prop where
  capacity : s.queue.capacity = if capacity = 0 then 1 else capacity
  fifo : (takenIn events).map (·.2) ++ s.queue.queue = acceptedIn events
  once : (acceptedIn events).Nodup
  accepted : ∀ i : Nat, i ∈ acceptedIn events ↔ s.calls[i]? = some (.busy (.returned true))
  flagged : s.queue.shutdown = s.closing.isFlagged
  items : Covered s.queue.queue.length s.workers
  places : s.queue.shutdown = false → Covered (s.queue.capacity - s.queue.queue.length) s.calls
  left : ∀ j : Nat, s.workers[j]? = some (.busy .left) → s.queue.shutdown = true ∧ s.queue.queue = []
  workers : s.closing = .workersNotified ∨ s.closing = .joining → .waiting ∉ s.workers
  calls : s.closing = .joining → .waiting ∉ s.calls

namespace Orderly

theorem create (workers capacity : Nat) : Orderly capacity [] (create workers capacity) where
  capacity := rfl
  fifo := rfl
  once := List.nodup_nil
  accepted i := by simp [acceptedIn, ThreadPool.create]
  flagged := rfl
  items := .nothing
  places _ := .of_none List.not_mem_nil
  left j hj := by
    have h := List.eq_of_mem_replicate (List.mem_of_getElem? hj)
    cases h
  workers h := by rcases h with h | h <;> cases h
  calls h := by cases h

/-- A call goes on, and is not accepted by that. -/
theorem moveCall {x y : Seat Submit} (h : Orderly capacity events s) (hi : s.calls[i]? = some x)
    (hx : x ≠ .busy (.returned true)) (hy : y ≠ .busy (.returned true))
    (hplaces : s.queue.shutdown = false →
      Covered (s.queue.capacity - s.queue.queue.length) (s.calls.set i y))
    (hwait : y = .waiting → s.queue.shutdown = false) :
    Orderly capacity events { s with calls := s.calls.set i y } where
  capacity := h.capacity
  fifo := h.fifo
  once := h.once
  accepted k := by
    rw [h.accepted, getElem?_move hi]
    split
    · rename_i hk
      rw [hk, hi, Option.some.injEq, Option.some.injEq]
      exact iff_of_false hx hy
    · exact Iff.rfl
  flagged := h.flagged
  items := h.items
  places := hplaces
  left := h.left
  workers := h.workers
  calls hc := by
    have hflag := h.flagged
    rw [hc] at hflag
    have hy' : y ≠ .waiting := fun he => absurd (hflag.symm.trans (hwait he)) (by decide)
    exact fun hw => h.calls hc (waiting_of_move hy' hw)

/-- A worker goes on, and takes nothing by that. -/
theorem moveWorker {x y : Seat Worker} (h : Orderly capacity events s) (hj : s.workers[j]? = some x)
    (hitems : Covered s.queue.queue.length (s.workers.set j y))
    (hleft : y = .busy .left → s.queue.shutdown = true ∧ s.queue.queue = [])
    (hwait : y = .waiting → s.queue.shutdown = false) :
    Orderly capacity events { s with workers := s.workers.set j y } where
  capacity := h.capacity
  fifo := h.fifo
  once := h.once
  accepted := h.accepted
  flagged := h.flagged
  items := hitems
  places := h.places
  left k hk := by
    rw [getElem?_move hj] at hk
    split at hk
    · exact hleft (Option.some.inj hk)
    · exact h.left k hk
  workers hc := by
    have hflag : s.queue.shutdown = true := by
      rw [h.flagged]
      rcases hc with hc | hc
      · rw [hc]
        rfl
      · rw [hc]
        rfl
    have hy : y ≠ .waiting := fun he => absurd (hflag.symm.trans (hwait he)) (by decide)
    exact fun hw => h.workers hc (waiting_of_move hy hw)
  calls := h.calls

/-- A push succeeds. -/
theorem push {x : Seat Submit} {queue : BoundedQueue Nat} {l : List (Seat Worker)}
    (h : Orderly capacity events s) (hi : s.calls[i]? = some x)
    (hx : x = .busy .pushing ∨ x = .woken) (hq : s.queue.push i = some (true, queue))
    (hn : NotifyOne s.workers l) :
    Orderly capacity (events ++ [.accepted i])
      { s with queue := queue, calls := s.calls.set i (.busy (.returned true)), workers := l } := by
  obtain ⟨hserving, hlen, hqueue, hcap, hsame⟩ := BoundedQueue.push_true hq
  have haccepted : acceptedIn (events ++ [.accepted i]) = acceptedIn events ++ [i] := by
    simp [acceptedIn, Event.accepted?]
  have htaken : takenIn (events ++ [.accepted i]) = takenIn events := by
    simp [takenIn, Event.taken?]
  have hfresh : i ∉ acceptedIn events := by
    rw [h.accepted, hi]
    rcases hx with rfl | rfl <;> simp
  refine ⟨hcap.trans h.capacity, ?_, ?_, fun k => ?_, ?_, ?_, fun hs => ?_, fun k hk => ?_, ?_, ?_⟩
  · rw [haccepted, htaken, hqueue, ← List.append_assoc, h.fifo]
  · rw [haccepted]
    refine List.nodup_append.mpr ⟨h.once, List.pairwise_singleton _ i, fun a ha b hb he => ?_⟩
    rw [List.mem_singleton.mp hb] at he
    exact hfresh (he ▸ ha)
  · rw [haccepted, List.mem_append, List.mem_singleton, h.accepted, getElem?_move hi]
    by_cases hk : k = i
    · simp [hk]
    · simp [hk]
  · rw [hsame, ← hserving, h.flagged]
  · rw [hqueue, List.length_append]
    exact h.items.notifyOne hn
  · have htake := (h.places hserving).take (b := .returned true) hi
    rw [hqueue, hcap, List.length_append]
    exact htake.mono (Nat.le_of_eq (Nat.sub_add_eq _ _ 1))
  · have hleft := h.left k (hn.busy.mp hk)
    rw [hserving] at hleft
    exact absurd hleft.1 (by decide)
  · exact fun hc hw => h.workers hc (hn.waiting hw)
  · exact fun hc hw => h.calls hc (waiting_of_move (Seat.busy_ne_waiting _) hw)

/-- A worker takes a task. -/
theorem pop {x : Seat Worker} {task : Nat} {queue : BoundedQueue Nat} {l : List (Seat Submit)}
    (h : Orderly capacity events s) (hj : s.workers[j]? = some x)
    (hq : s.queue.pop = some (some task, queue)) (hn : NotifyOne s.calls l) :
    Orderly capacity (events ++ [.taken j task])
      { s with queue := queue, calls := l, workers := s.workers.set j (.busy (.running task)) } := by
  obtain ⟨hqueue, hcap, hsame⟩ := BoundedQueue.pop_some hq
  have hlen := congrArg List.length hqueue
  rw [List.length_cons] at hlen
  have haccepted : acceptedIn (events ++ [.taken j task]) = acceptedIn events := by
    simp [acceptedIn, Event.accepted?]
  have htaken : takenIn (events ++ [.taken j task]) = takenIn events ++ [(j, task)] := by
    simp [takenIn, Event.taken?]
  refine ⟨hcap.trans h.capacity, ?_, ?_, fun k => ?_, ?_, ?_, fun hs => ?_, fun k hk => ?_, ?_, ?_⟩
  · rw [haccepted, htaken, ← h.fifo, hqueue]
    simp
  · rw [haccepted]
    exact h.once
  · rw [haccepted, h.accepted]
    exact hn.busy.symm
  · rw [hsame, h.flagged]
  · have htake := h.items.take (b := .running task) hj
    rwa [hlen, Nat.add_sub_cancel] at htake
  · rw [hsame] at hs
    have hplaces : queue.capacity - queue.queue.length ≤
        s.queue.capacity - s.queue.queue.length + 1 := by
      rw [hcap, hlen]
      omega
    exact ((h.places hs).notifyOne hn).mono hplaces
  · rw [getElem?_move hj] at hk
    split at hk
    · cases hk
    · have hleft := (h.left k hk).2
      rw [hqueue] at hleft
      cases hleft
  · exact fun hc hw => h.workers hc (waiting_of_move (Seat.busy_ne_waiting _) hw)
  · exact fun hc hw => h.calls hc (hn.waiting hw)

/-- The step lemma. -/
theorem step (h : Orderly capacity events s) (hs : Step s new t) :
    Orderly capacity (events ++ new) t := by
  have hfree : ∀ {i : Nat} {x : Seat Submit} (b : Submit), s.calls[i]? = some x →
      s.queue.shutdown = true → s.queue.shutdown = false →
      Covered (s.queue.capacity - s.queue.queue.length) (s.calls.set i (.busy b)) := by
    intro i x b _ htrue hfalse
    rw [htrue] at hfalse
    cases hfalse
  have hpush : ∀ {x : Seat Submit}, x = .busy .pushing ∨ x = .woken →
      x ≠ .busy (.returned true) := by
    rintro x (rfl | rfl) <;> simp
  cases hs with
  | push hi hx hq hn => exact h.push hi hx hq hn
  | pop hj hx hq hn => exact h.pop hj hq hn
  | submit =>
    rw [List.append_nil]
    refine ⟨h.capacity, h.fifo, h.once, fun k => ?_, h.flagged, h.items,
      fun hs => (h.places hs).append, h.left, h.workers, fun hc hw => ?_⟩
    · rw [h.accepted]
      by_cases hk : k < s.calls.length
      · rw [List.getElem?_append_left hk]
      · rw [List.getElem?_eq_none (Nat.le_of_not_lt hk),
          List.getElem?_append_right (Nat.le_of_not_lt hk), List.getElem?_singleton]
        split
        · simp
        · exact Iff.rfl
    · rcases List.mem_append.mp hw with hw | hw
      · exact h.calls hc hw
      · exact Seat.busy_ne_waiting _ (List.mem_singleton.mp hw).symm
  | refuse hi hs =>
    rw [List.append_nil]
    exact h.moveCall hi (by simp) (by simp) (fun hs => (h.places hs).busy hi) (by simp)
  | enter hi hs =>
    rw [List.append_nil]
    exact h.moveCall hi (by simp) (by simp) (fun hs => (h.places hs).busy hi) (by simp)
  | pushFails hi hx hq =>
    rw [List.append_nil]
    obtain ⟨rfl, hs⟩ := BoundedQueue.push_false hq
    exact h.moveCall hi (hpush hx) (by simp) (hfree _ hi hs) (by simp)
  | pushWaits hi hx hq =>
    rw [List.append_nil]
    obtain ⟨hs, hlen⟩ := BoundedQueue.push_waits hq
    refine h.moveCall hi (hpush hx) (by simp) (fun _ => ?_) fun _ => hs
    rw [hlen, Nat.sub_self]
    exact .nothing
  | popEnds hj hx hq =>
    rw [List.append_nil]
    obtain ⟨rfl, hempty, hs⟩ := BoundedQueue.pop_none hq
    refine h.moveWorker hj ?_ (fun _ => ⟨hs, hempty⟩) (by simp)
    rw [hempty]
    exact .nothing
  | popWaits hj hx hq =>
    rw [List.append_nil]
    obtain ⟨hempty, hs⟩ := BoundedQueue.pop_waits hq
    refine h.moveWorker hj ?_ (by simp) fun _ => hs
    rw [hempty]
    exact .nothing
  | finish hj =>
    rw [List.append_nil]
    exact h.moveWorker hj (h.items.busy hj) (by simp) (by simp)
  | wakeCall hi =>
    rw [List.append_nil]
    exact h.moveCall hi (by simp) (by simp) (fun hs => (h.places hs).wake hi) (by simp)
  | wakeWorker hj =>
    rw [List.append_nil]
    exact h.moveWorker hj (h.items.wake hj) (by simp) (by simp)
  | stop hs =>
    rw [List.append_nil]
    refine ⟨h.capacity, h.fifo, h.once, h.accepted, ?_, h.items, h.places, h.left, by simp, by simp⟩
    rw [h.flagged, hs]
    rfl
  | flag hs =>
    rw [List.append_nil]
    refine ⟨h.capacity, h.fifo, h.once, h.accepted, rfl, h.items, ?_, ?_, by simp, by simp⟩
    · intro hfalse
      cases hfalse
    · exact fun k hk => ⟨rfl, (h.left k hk).2⟩
  | notifyWorkers hs =>
    rw [List.append_nil]
    refine ⟨h.capacity, h.fifo, h.once, h.accepted, ?_, .of_none notifyAll_waiting, h.places,
      fun k hk => h.left k (notifyAll_busy.mp hk), fun _ => notifyAll_waiting, by simp⟩
    rw [h.flagged, hs]
    rfl
  | notifyCalls hs =>
    rw [List.append_nil]
    refine ⟨h.capacity, h.fifo, h.once, fun k => (h.accepted k).trans notifyAll_busy.symm, ?_,
      h.items, fun _ => .of_none notifyAll_waiting, h.left, fun _ => h.workers (.inl hs),
      fun _ => notifyAll_waiting⟩
    rw [h.flagged, hs]
    rfl

end Orderly

/-- The run lemma. -/
theorem Run.orderly (h : Run workers capacity events s) : Orderly capacity events s := by
  induction h with
  | start => exact .create workers capacity
  | step _ hs ih => exact ih.step hs

/-- No worker is added or lost. -/
theorem Step.workers_length (hs : Step s new t) : t.workers.length = s.workers.length := by
  cases hs with
  | push hi hx hq hn => exact hn.length
  | notifyWorkers hs => exact List.length_map _
  | pop => exact List.length_set
  | popEnds => exact List.length_set
  | popWaits => exact List.length_set
  | finish => exact List.length_set
  | wakeWorker => exact List.length_set
  | _ => rfl

theorem Run.workers_ne (h : Run workers capacity events s) : s.workers ≠ [] := by
  refine List.ne_nil_of_length_pos ?_
  induction h with
  | start =>
    simp only [ThreadPool.create, List.length_replicate]
    split
    · exact Nat.one_pos
    · rename_i hw
      exact Nat.pos_of_ne_zero hw
  | step _ hs ih =>
    rw [hs.workers_length]
    exact ih

/-- While a task is in the queue, some worker is on its way to it. -/
theorem Run.someone (h : Run workers capacity events s) (hq : s.queue.queue ≠ []) :
    ∃ x ∈ s.workers, x ≠ .waiting ∧ x ≠ .busy .left := by
  have ho := h.orderly
  by_cases hw : .waiting ∈ s.workers
  · exact ⟨.woken, ho.items.exists_woken (List.length_pos_of_ne_nil hq) hw, by simp, by simp⟩
  · obtain ⟨x, hx⟩ := List.exists_mem_of_ne_nil _ h.workers_ne
    refine ⟨x, hx, fun he => hw (he ▸ hx), fun he => hq ?_⟩
    obtain ⟨j, hj⟩ := List.getElem?_of_mem hx
    exact (ho.left j (he ▸ hj)).2

/-- A call that returned true has its task taken once or waiting in the queue. -/
theorem Orderly.taken_once (h : Orderly capacity events s)
    (hi : s.calls[i]? = some (.busy (.returned true))) :
    ((takenIn events).map (·.2)).count i + s.queue.queue.count i = 1 := by
  rw [← List.count_append, h.fifo]
  exact List.count_eq_one_of_mem h.once ((h.accepted i).mpr hi)

/-- What the queue and its threads keep, in any order of steps. Between its critical section and
its last notification, a shutdown may leave a place free beside a call that waits: a woken call
returns without using it. -/
theorem accepted_tasks_are_taken_once (h : Run workers capacity events s) :
    s.queue.queue.length ≤ (if capacity = 0 then 1 else capacity) ∧
      (takenIn events).map (·.2) ++ s.queue.queue = acceptedIn events ∧
      (∀ i : Nat, s.calls[i]? = some (.busy (.returned true)) →
        ((takenIn events).map (·.2)).count i + s.queue.queue.count i = 1) ∧
      (∀ i : Nat, s.calls[i]? = some (.busy (.returned false)) →
        i ∉ (takenIn events).map (·.2) ∧ i ∉ s.queue.queue) ∧
      (∀ j : Nat, s.workers[j]? = some (.busy .left) →
        s.queue.shutdown = true ∧ s.queue.queue = [] ∧ (takenIn events).map (·.2) = acceptedIn events) ∧
      (s.queue.queue ≠ [] → (.waiting ∈ s.workers → .woken ∈ s.workers) ∧
        ∃ x ∈ s.workers, x ≠ .waiting ∧ x ≠ .busy .left) ∧
      (s.queue.queue.length < s.queue.capacity → .waiting ∈ s.calls →
        .woken ∈ s.calls ∨ s.closing = .flagged ∨ s.closing = .workersNotified) ∧
      (s.closing = .joining → .waiting ∉ s.workers ∧ .waiting ∉ s.calls) := by
  have ho := h.orderly
  refine ⟨ho.capacity ▸ s.queue.fits, ho.fifo, fun i hi => ho.taken_once hi, fun i hi => ?_,
    fun j hj => ?_, fun hq => ⟨fun hw => ?_, h.someone hq⟩, fun hlen hw => ?_,
    fun hc => ⟨ho.workers (.inr hc), ho.calls hc⟩⟩
  · rw [← not_or, ← List.mem_append, ho.fifo, ho.accepted, hi]
    simp
  · obtain ⟨hs, hempty⟩ := ho.left j hj
    refine ⟨hs, hempty, ?_⟩
    rw [← ho.fifo, hempty, List.append_nil]
  · exact ho.items.exists_woken (List.length_pos_of_ne_nil hq) hw
  · cases hc : s.closing with
    | flagged => exact .inr (.inl rfl)
    | workersNotified => exact .inr (.inr rfl)
    | joining => exact absurd hw (ho.calls hc)
    | serving =>
      have hs : s.queue.shutdown = false := by rw [ho.flagged, hc]; rfl
      exact .inl ((ho.places hs).exists_woken (Nat.sub_pos_of_lt hlen) hw)
    | stopped =>
      have hs : s.queue.shutdown = false := by rw [ho.flagged, hc]; rfl
      exact .inl ((ho.places hs).exists_woken (Nat.sub_pos_of_lt hlen) hw)

/-- One task from its call to the end of the pool. -/
theorem one_task_is_taken_once :
    ∃ events s, Run 1 1 events s ∧ s.workers[0]? = some (.busy .left) ∧ acceptedIn events = [0] ∧
      (takenIn events).map (·.2) = acceptedIn events := by
  have h0 : Run 1 1 [] (create 1 1) := .start
  have h2 := (h0.step (.submit _)).step (.enter (i := 0) rfl rfl)
  have h3 := h2.step (.push (i := 0) rfl (.inl rfl) rfl (.nobody (by decide)))
  have h4 := h3.step (.pop (j := 0) rfl (.inl rfl) rfl (.nobody (by decide)))
  have h7 := ((h4.step (.finish (j := 0) rfl)).step (.stop rfl)).step (.flag rfl)
  have h8 := h7.step (.popEnds (j := 0) rfl (.inl rfl) rfl)
  obtain ⟨_, _, _, _, hleft, _⟩ := accepted_tasks_are_taken_once h8
  exact ⟨_, _, h8, rfl, rfl, (hleft 0 rfl).2.2⟩

/-- One worker takes the only task that fits, and wakes the second call; the shutdown comes before
it has the lock, so that it returns false and the third call waits beside an empty queue. -/
theorem shutdown_leaves_a_place :
    ∃ events s, Run 1 1 events s ∧ s.queue.queue.length < s.queue.capacity ∧ .waiting ∈ s.calls ∧
      ∀ x ∈ s.calls, x = .waiting ∨ ∃ accepted, x = .busy (.returned accepted) := by
  have h0 : Run 1 1 [] (create 1 1) := .start
  have h3 := ((h0.step (.submit _)).step (.submit _)).step (.submit _)
  have h6 := ((h3.step (.enter (i := 0) rfl rfl)).step (.enter (i := 1) rfl rfl)).step
    (.enter (i := 2) rfl rfl)
  have h7 := h6.step (.push (i := 0) rfl (.inl rfl) rfl (.nobody (by decide)))
  have h9 := (h7.step (.pushWaits (i := 1) rfl (.inl rfl) rfl)).step
    (.pushWaits (i := 2) rfl (.inl rfl) rfl)
  have h10 := h9.step (.pop (j := 0) rfl (.inl rfl) rfl (.one (i := 1) rfl))
  have h13 := ((h10.step (.stop rfl)).step (.flag rfl)).step (.pushFails (i := 1) rfl (.inr rfl) rfl)
  have hcalls : ∀ x ∈ ([.busy (.returned true), .busy (.returned false), .waiting] :
      List (Seat Submit)), x = .waiting ∨ ∃ accepted, x = .busy (.returned accepted) := by
    simp
  exact ⟨_, _, h13, by decide, by decide, hcalls⟩

end ThreadPool

end Dpc
