import Dpc.Guarantees.Delivered

/-! The pool works off what it accepts, and its shutdown comes to an end, provided that every task
does. -/

namespace Dpc
open Monitor

namespace ThreadPool

/-- What comes from outside: one more call of `submit`, or the call of `shutdown`. -/
inductive Asks : ThreadPool → ThreadPool → Prop where
  | submit (s : ThreadPool) : Asks s { s with calls := s.calls ++ [.busy .entering] }
  | stop {s : ThreadPool} (hs : s.closing = .serving) : Asks s { s with closing := .stopped }

/-- A wake-up that nobody notified. -/
inductive Spurious : ThreadPool → ThreadPool → Prop where
  | call {s : ThreadPool} {i : Nat} (hi : s.calls[i]? = some .waiting) :
      Spurious s { s with calls := s.calls.set i .woken }
  | worker {s : ThreadPool} {j : Nat} (hj : s.workers[j]? = some .waiting) :
      Spurious s { s with workers := s.workers.set j .woken }

/-- A run with the number of its spurious wake-ups and of the steps that its threads take. -/
inductive Counted (workers capacity : Nat) : Nat → Nat → List Event → ThreadPool → Prop where
  | start : Counted workers capacity 0 0 [] (.create workers capacity)
  | asks {own spurious : Nat} {events new : List Event} {s t : ThreadPool}
      (h : Counted workers capacity own spurious events s) (hs : Step s new t) (ha : Asks s t) :
      Counted workers capacity own spurious (events ++ new) t
  | spurious {own spurious : Nat} {events new : List Event} {s t : ThreadPool}
      (h : Counted workers capacity own spurious events s) (hs : Step s new t) (hw : Spurious s t) :
      Counted workers capacity own (spurious + 1) (events ++ new) t
  | own {own spurious : Nat} {events new : List Event} {s t : ThreadPool}
      (h : Counted workers capacity own spurious events s) (hs : Step s new t) (ha : ¬Asks s t)
      (hw : ¬Spurious s t) : Counted workers capacity (own + 1) spurious (events ++ new) t

/-- Nobody has anything left to do. -/
def Resting (s : ThreadPool) : Prop := ∀ new t, Step s new t → Asks s t ∨ Spurious s t

variable {workers capacity own spurious : Nat} {events new : List Event} {s t : ThreadPool}
  {i j : Nat}

theorem Counted.run (h : Counted workers capacity own spurious events s) :
    Run workers capacity events s := by
  induction h with
  | start => exact .start
  | asks _ hs _ ih => exact ih.step hs
  | spurious _ hs _ ih => exact ih.step hs
  | own _ hs _ _ ih => exact ih.step hs

/-- A waiting call has to be woken, to push and to return. -/
def callLoad : Seat Submit → Nat
  | .busy .entering => 6
  | .busy .pushing => 5
  | .busy (.returned _) => 0
  | .waiting => 4
  | .woken => 5

/-- A worker that waits has nothing to do until it is woken. -/
def workerLoad : Seat Worker → Nat
  | .busy .popping => 1
  | .busy (.running _) => 2
  | .busy .left => 0
  | .waiting => 0
  | .woken => 1

def closingLoad : Closing → Nat
  | .serving => 3
  | .stopped => 3
  | .flagged => 2
  | .workersNotified => 1
  | .joining => 0

/-- A bound on the steps that the threads can still take. A task in the queue counts for its pop,
its end and the call that the pop wakes; a notification may wake everyone. -/
def potential (s : ThreadPool) : Nat :=
  load callLoad s.calls + load workerLoad s.workers + 3 * s.queue.queue.length +
    closingLoad s.closing * (s.workers.length + s.calls.length + 1)

theorem callLoad_returned (accepted : Bool) : callLoad (.busy (.returned accepted)) = 0 := rfl

theorem callLoad_pushing {x : Seat Submit} (hx : x = .busy .pushing ∨ x = .woken) :
    callLoad x = 5 := by
  rcases hx with rfl | rfl
  · rfl
  · rfl

theorem workerLoad_running (task : Nat) : workerLoad (.busy (.running task)) = 2 := rfl

theorem workerLoad_popping {x : Seat Worker} (hx : x = .busy .popping ∨ x = .woken) :
    workerLoad x = 1 := by
  rcases hx with rfl | rfl
  · rfl
  · rfl

theorem potential_moveCall {x y : Seat Submit} (hi : s.calls[i]? = some x)
    (hw : callLoad y < callLoad x) :
    potential { s with calls := s.calls.set i y } < potential s := by
  have hmove := load_move (w := callLoad) (y := y) hi
  simp only [potential, List.length_set]
  omega

theorem potential_moveWorker {x y : Seat Worker} (hj : s.workers[j]? = some x)
    (hw : workerLoad y < workerLoad x) :
    potential { s with workers := s.workers.set j y } < potential s := by
  have hmove := load_move (w := workerLoad) (y := y) hj
  simp only [potential, List.length_set]
  omega

theorem potential_push {x : Seat Submit} {queue : BoundedQueue Nat} {l : List (Seat Worker)}
    (hi : s.calls[i]? = some x) (hx : x = .busy .pushing ∨ x = .woken)
    (hq : s.queue.push i = some (true, queue)) (hn : NotifyOne s.workers l) :
    potential { s with
      queue := queue
      calls := s.calls.set i (.busy (.returned true))
      workers := l } < potential s := by
  obtain ⟨_, _, hqueue, _, _⟩ := BoundedQueue.push_true hq
  have hmove := load_move (w := callLoad) (y := .busy (.returned true)) hi
  have hwoken := hn.load_le (w := workerLoad) (Nat.le_refl 1)
  rw [callLoad_pushing hx, callLoad_returned] at hmove
  simp only [potential, List.length_set, hn.length, hqueue, List.length_append,
    List.length_singleton]
  omega

theorem potential_pop {x : Seat Worker} {task : Nat} {queue : BoundedQueue Nat}
    {l : List (Seat Submit)} (hj : s.workers[j]? = some x) (hx : x = .busy .popping ∨ x = .woken)
    (hq : s.queue.pop = some (some task, queue)) (hn : NotifyOne s.calls l) :
    potential { s with
      queue := queue
      calls := l
      workers := s.workers.set j (.busy (.running task)) } < potential s := by
  obtain ⟨hqueue, _, _⟩ := BoundedQueue.pop_some hq
  have hmove := load_move (w := workerLoad) (y := .busy (.running task)) hj
  have hwoken := hn.load_le (w := callLoad) (Nat.le_refl 5)
  rw [workerLoad_popping hx, workerLoad_running] at hmove
  simp only [potential, List.length_set, hn.length, hqueue, List.length_cons]
  omega

theorem potential_flag (hs : s.closing = .stopped) :
    potential { s with queue := s.queue.setShutdown, closing := .flagged } < potential s := by
  simp only [potential, hs, closingLoad, BoundedQueue.setShutdown]
  omega

theorem potential_notifyWorkers (hs : s.closing = .flagged) :
    potential { s with workers := notifyAll s.workers, closing := .workersNotified } <
      potential s := by
  have hwoken := load_notifyAll (w := workerLoad) (l := s.workers) (Nat.le_refl 1)
  have hlen : (notifyAll s.workers).length = s.workers.length := List.length_map _
  simp only [potential, hs, closingLoad, hlen]
  omega

theorem potential_notifyCalls (hs : s.closing = .workersNotified) :
    potential { s with calls := notifyAll s.calls, closing := .joining } < potential s := by
  have hwoken := load_notifyAll (w := callLoad) (l := s.calls) (Nat.le_refl 5)
  have hlen : (notifyAll s.calls).length = s.calls.length := List.length_map _
  simp only [potential, hs, closingLoad, hlen]
  omega

/-- The step lemma. -/
theorem Step.works_off (h : Step s new t) :
    Asks s t ∨ Spurious s t ∨ potential t < potential s ∧ t.calls.length = s.calls.length := by
  cases h with
  | submit => exact .inl (.submit _)
  | stop hs => exact .inl (.stop hs)
  | wakeCall hi => exact .inr (.inl (.call hi))
  | wakeWorker hj => exact .inr (.inl (.worker hj))
  | refuse hi hs => exact .inr (.inr ⟨potential_moveCall hi (by decide), List.length_set⟩)
  | enter hi hs => exact .inr (.inr ⟨potential_moveCall hi (by decide), List.length_set⟩)
  | push hi hx hq hn => exact .inr (.inr ⟨potential_push hi hx hq hn, List.length_set⟩)
  | pushFails hi hx hq =>
    obtain ⟨rfl, _⟩ := BoundedQueue.push_false hq
    have hlt : callLoad (.busy (.returned false)) < 5 := by decide
    exact .inr (.inr ⟨potential_moveCall hi (callLoad_pushing hx ▸ hlt), List.length_set⟩)
  | pushWaits hi hx hq =>
    have hlt : callLoad .waiting < 5 := by decide
    exact .inr (.inr ⟨potential_moveCall hi (callLoad_pushing hx ▸ hlt), List.length_set⟩)
  | pop hj hx hq hn => exact .inr (.inr ⟨potential_pop hj hx hq hn, hn.length⟩)
  | popEnds hj hx hq =>
    obtain ⟨rfl, _⟩ := BoundedQueue.pop_none hq
    have hlt : workerLoad (.busy .left) < 1 := by decide
    exact .inr (.inr ⟨potential_moveWorker hj (workerLoad_popping hx ▸ hlt), rfl⟩)
  | popWaits hj hx hq =>
    have hlt : workerLoad .waiting < 1 := by decide
    exact .inr (.inr ⟨potential_moveWorker hj (workerLoad_popping hx ▸ hlt), rfl⟩)
  | finish hj => exact .inr (.inr ⟨potential_moveWorker hj Nat.one_lt_two, rfl⟩)
  | flag hs => exact .inr (.inr ⟨potential_flag hs, rfl⟩)
  | notifyWorkers hs => exact .inr (.inr ⟨potential_notifyWorkers hs, rfl⟩)
  | notifyCalls hs => exact .inr (.inr ⟨potential_notifyCalls hs, List.length_map _⟩)

/-- A call brings its own work, and nine steps pay for it. -/
theorem Asks.potential_le (h : Asks s t) :
    potential s ≤ potential t ∧
      potential t + 9 * s.calls.length ≤ potential s + 9 * t.calls.length := by
  cases h with
  | submit =>
    have hclosing : closingLoad s.closing ≤ 3 := by
      cases s.closing with
      | serving | stopped => exact Nat.le_refl _
      | flagged | workersNotified | joining => decide
    have hmore : load callLoad (s.calls ++ [.busy .entering]) = load callLoad s.calls + 6 :=
      load_append
    simp only [potential, hmore, List.length_append, List.length_singleton, Nat.mul_add,
      Nat.mul_one]
    omega
  | stop hs =>
    have heq : potential { s with closing := .stopped } = potential s := by
      simp only [potential, hs]
      rfl
    exact ⟨Nat.le_of_eq heq.symm, Nat.le_of_eq (congrArg (· + 9 * s.calls.length) heq)⟩

theorem Spurious.potential_eq (h : Spurious s t) :
    potential t = potential s + 1 ∧ t.calls.length = s.calls.length := by
  cases h with
  | @call i hi =>
    have hmove : load callLoad (s.calls.set i .woken) + 4 = load callLoad s.calls + 5 :=
      load_move hi
    refine ⟨?_, List.length_set⟩
    simp only [potential, List.length_set]
    omega
  | @worker j hj =>
    have hmove : load workerLoad (s.workers.set j .woken) + 0 = load workerLoad s.workers + 1 :=
      load_move hj
    refine ⟨?_, rfl⟩
    simp only [potential, List.length_set]
    omega

theorem Counted.own_of_lt (h : Counted workers capacity own spurious events s) (hs : Step s new t)
    (hlt : potential t < potential s) :
    Counted workers capacity (own + 1) spurious (events ++ new) t := by
  refine h.own hs (fun ha => ?_) fun hw => ?_
  · have hle := ha.potential_le.1
    omega
  · have heq := hw.potential_eq.1
    omega

/-- The run lemma: what was done and what is left to do is paid for. -/
theorem Counted.paid (h : Counted workers capacity own spurious events s) :
    own + potential s ≤
      4 * (if workers = 0 then 1 else workers) + 3 + 9 * s.calls.length + spurious := by
  induction h with
  | start =>
    have hworkers : load workerLoad (create workers capacity).workers =
        (if workers = 0 then 1 else workers) * 1 := load_replicate
    have hcalls : load callLoad (create workers capacity).calls = 0 := rfl
    rw [potential, hworkers, hcalls]
    simp only [create, BoundedQueue.create, closingLoad, List.length_replicate, List.length_nil]
    omega
  | asks _ _ ha ih =>
    have hle := ha.potential_le.2
    omega
  | spurious _ _ hw ih =>
    obtain ⟨heq, hcalls⟩ := hw.potential_eq
    omega
  | own _ hs ha hw ih =>
    rcases hs.works_off with hasks | hspurious | ⟨hlt, hcalls⟩
    · exact absurd hasks ha
    · exact absurd hspurious hw
    · omega

namespace Resting

theorem absurd (h : Resting s) (hs : Step s new t) (hlt : potential t < potential s) : False := by
  rcases h new t hs with hasks | hspurious
  · have hle := hasks.potential_le.1
    omega
  · have heq := hspurious.potential_eq.1
    omega

/-- A worker in `pop` goes on in any case. -/
theorem not_popping {x : Seat Worker} (h : Resting s) (hj : s.workers[j]? = some x)
    (hx : x = .busy .popping ∨ x = .woken) : False := by
  cases hq : s.queue.pop with
  | none =>
    have hlt : workerLoad .waiting < 1 := by decide
    exact h.absurd (.popWaits hj hx hq) (potential_moveWorker hj (workerLoad_popping hx ▸ hlt))
  | some r =>
    obtain ⟨task?, queue⟩ := r
    cases task? with
    | none =>
      obtain ⟨rfl, _⟩ := BoundedQueue.pop_none hq
      have hlt : workerLoad (.busy .left) < 1 := by decide
      exact h.absurd (.popEnds hj hx hq) (potential_moveWorker hj (workerLoad_popping hx ▸ hlt))
    | some task =>
      obtain ⟨l, hn⟩ := NotifyOne.exists s.calls
      exact h.absurd (.pop hj hx hq hn) (potential_pop hj hx hq hn)

/-- A call in `push` goes on in any case. -/
theorem not_pushing {x : Seat Submit} (h : Resting s) (hi : s.calls[i]? = some x)
    (hx : x = .busy .pushing ∨ x = .woken) : False := by
  cases hq : s.queue.push i with
  | none =>
    have hlt : callLoad .waiting < 5 := by decide
    exact h.absurd (.pushWaits hi hx hq) (potential_moveCall hi (callLoad_pushing hx ▸ hlt))
  | some r =>
    obtain ⟨accepted, queue⟩ := r
    cases accepted with
    | false =>
      obtain ⟨rfl, _⟩ := BoundedQueue.push_false hq
      have hlt : callLoad (.busy (.returned false)) < 5 := by decide
      exact h.absurd (.pushFails hi hx hq) (potential_moveCall hi (callLoad_pushing hx ▸ hlt))
    | true =>
      obtain ⟨l, hn⟩ := NotifyOne.exists s.workers
      exact h.absurd (.push hi hx hq hn) (potential_push hi hx hq hn)

theorem worker (h : Resting s) {x : Seat Worker} (hx : x ∈ s.workers) :
    x = .waiting ∨ x = .busy .left := by
  obtain ⟨j, hj⟩ := List.getElem?_of_mem hx
  cases x with
  | waiting => exact .inl rfl
  | woken => exact (h.not_popping hj (.inr rfl)).elim
  | busy b =>
    cases b with
    | left => exact .inr rfl
    | popping => exact (h.not_popping hj (.inl rfl)).elim
    | running task =>
      exact (h.absurd (.finish hj) (potential_moveWorker hj Nat.one_lt_two)).elim

theorem call (h : Resting s) {x : Seat Submit} (hx : x ∈ s.calls) :
    x = .waiting ∨ ∃ accepted, x = .busy (.returned accepted) := by
  obtain ⟨i, hi⟩ := List.getElem?_of_mem hx
  cases x with
  | waiting => exact .inl rfl
  | woken => exact (h.not_pushing hi (.inr rfl)).elim
  | busy b =>
    cases b with
    | returned accepted => exact .inr ⟨accepted, rfl⟩
    | pushing => exact (h.not_pushing hi (.inl rfl)).elim
    | entering =>
      by_cases hs : s.closing = .serving
      · exact (h.absurd (.enter hi hs) (potential_moveCall hi (by decide))).elim
      · exact (h.absurd (.refuse hi hs) (potential_moveCall hi (by decide))).elim

/-- A shutdown goes on to its joins. -/
theorem closing (h : Resting s) : s.closing = .serving ∨ s.closing = .joining := by
  cases hs : s.closing with
  | serving => exact .inl rfl
  | stopped => exact (h.absurd (.flag hs) (potential_flag hs)).elim
  | flagged => exact (h.absurd (.notifyWorkers hs) (potential_notifyWorkers hs)).elim
  | workersNotified => exact (h.absurd (.notifyCalls hs) (potential_notifyCalls hs)).elim
  | joining => exact .inr rfl

/-- Some worker would be on its way to a task. -/
theorem queue (h : Resting s) (hr : Run workers capacity events s) : s.queue.queue = [] := by
  by_contra hq
  obtain ⟨x, hx, hwaiting, hleft⟩ := hr.someone hq
  rcases h.worker hx with he | he
  · exact hwaiting he
  · exact hleft he

/-- A waiting call would have been woken for a place in the empty queue. -/
theorem returned (h : Resting s) (hr : Run workers capacity events s) {x : Seat Submit}
    (hx : x ∈ s.calls) : ∃ accepted, x = .busy (.returned accepted) := by
  rcases h.call hx with rfl | hreturned
  · have ho := hr.orderly
    rcases h.closing with hs | hs
    · have hopen : s.queue.shutdown = false := by
        rw [ho.flagged, hs]
        rfl
      have hplaces : 0 < s.queue.capacity - s.queue.queue.length := by
        rw [h.queue hr]
        exact s.queue.positive
      rcases h.call ((ho.places hopen).exists_woken hplaces hx) with he | ⟨_, he⟩
      · cases he
      · cases he
    · exact (ho.calls hs hx).elim
  · exact hreturned

/-- Before the shutdown every worker waits for work; after it every worker has left. -/
theorem waiting_or_left (h : Resting s) (hr : Run workers capacity events s) :
    s.closing = .serving ∧ (∀ x ∈ s.workers, x = .waiting) ∨
      s.closing = .joining ∧ ∀ x ∈ s.workers, x = .busy .left := by
  have ho := hr.orderly
  rcases h.closing with hs | hs
  · refine .inl ⟨hs, fun x hx => ?_⟩
    rcases h.worker hx with hwaiting | rfl
    · exact hwaiting
    · obtain ⟨j, hj⟩ := List.getElem?_of_mem hx
      have hflag := (ho.left j hj).1
      rw [ho.flagged, hs] at hflag
      cases hflag
  · refine .inr ⟨hs, fun x hx => ?_⟩
    rcases h.worker hx with rfl | hleft
    · exact (ho.workers (.inr hs) hx).elim
    · exact hleft

/-- Nobody is anywhere that a step leaves from. -/
theorem of_done (hcalls : ∀ x ∈ s.calls, ∃ accepted, x = .busy (.returned accepted))
    (hworkers : s.closing = .serving ∧ (∀ x ∈ s.workers, x = .waiting) ∨
      s.closing = .joining ∧ ∀ x ∈ s.workers, x = .busy .left) : Resting s := by
  have hclosing : s.closing = .serving ∨ s.closing = .joining := by
    rcases hworkers with ⟨hs, _⟩ | ⟨hs, _⟩
    · exact .inl hs
    · exact .inr hs
  have hcall : ∀ {i : Nat} {x : Seat Submit}, s.calls[i]? = some x →
      x ≠ .busy .entering ∧ ¬(x = .busy .pushing ∨ x = .woken) := by
    intro i x hi
    obtain ⟨accepted, rfl⟩ := hcalls x (List.mem_of_getElem? hi)
    simp
  have hworker : ∀ {j : Nat} {x : Seat Worker}, s.workers[j]? = some x →
      (∀ task, x ≠ .busy (.running task)) ∧ ¬(x = .busy .popping ∨ x = .woken) := by
    intro j x hj
    rcases hworkers with ⟨_, hw⟩ | ⟨_, hw⟩
    · simp [hw x (List.mem_of_getElem? hj)]
    · simp [hw x (List.mem_of_getElem? hj)]
  intro new t hs
  cases hs with
  | submit => exact .inl (.submit _)
  | stop hserving => exact .inl (.stop hserving)
  | wakeCall hi => exact .inr (.call hi)
  | wakeWorker hj => exact .inr (.worker hj)
  | refuse hi _ | enter hi _ => exact ((hcall hi).1 rfl).elim
  | push hi hx _ _ | pushFails hi hx _ | pushWaits hi hx _ => exact ((hcall hi).2 hx).elim
  | pop hj hx _ _ | popEnds hj hx _ | popWaits hj hx _ => exact ((hworker hj).2 hx).elim
  | finish hj => exact ((hworker hj).1 _ rfl).elim
  | flag hs | notifyWorkers hs | notifyCalls hs => simp [hs] at hclosing

end Resting

/-- Its own steps bring the pool to rest. -/
theorem Counted.rests (h : Counted workers capacity own spurious events s) :
    ∃ n more t, Counted workers capacity (own + n) spurious (events ++ more) t ∧ Resting t := by
  induction hp : potential s using Nat.strongRecOn generalizing own events s with
  | ind p ih =>
    by_cases hrest : Resting s
    · exact ⟨0, [], s, (List.append_nil events).symm ▸ h, hrest⟩
    · obtain ⟨new, t, hs, hout⟩ : ∃ new t, Step s new t ∧ ¬(Asks s t ∨ Spurious s t) := by
        simpa only [Resting, not_forall, exists_prop] using hrest
      rcases hs.works_off with hasks | hspurious | ⟨hlt, _⟩
      · exact absurd (.inl hasks) hout
      · exact absurd (.inr hspurious) hout
      · obtain ⟨n, more, u, hu, hrestu⟩ := ih (potential t) (hp ▸ hlt)
          (h.own_of_lt hs hlt) rfl
        refine ⟨n + 1, new ++ more, u, ?_, hrestu⟩
        rw [← List.append_assoc, Nat.add_comm n 1, ← Nat.add_assoc]
        exact hu

/-- In any order of steps, with any calls and spurious wake-ups between them, the threads of a pool
take a bounded number of steps, at most nine for a call. From any state they come to rest, which is
where every call has returned, every accepted task was taken, and every worker waits for work or,
after a shutdown, has left, so that the shutdown returns. -/
theorem pool_comes_to_rest (h : Counted workers capacity own spurious events s) :
    own ≤ 4 * (if workers = 0 then 1 else workers) + 3 + 9 * s.calls.length + spurious ∧
      (∃ n more t, Counted workers capacity (own + n) spurious (events ++ more) t ∧ Resting t) ∧
      (Resting s ↔
        s.queue.queue = [] ∧ (takenIn events).map (·.2) = acceptedIn events ∧
          (∀ x ∈ s.calls, ∃ accepted, x = .busy (.returned accepted)) ∧
          (s.closing = .serving ∧ (∀ x ∈ s.workers, x = .waiting) ∨
            s.closing = .joining ∧ ∀ x ∈ s.workers, x = .busy .left)) := by
  refine ⟨Nat.le_trans (Nat.le_add_right _ _) h.paid, h.rests, fun hrest => ?_,
    fun ⟨_, _, hcalls, hworkers⟩ => .of_done hcalls hworkers⟩
  have hempty := hrest.queue h.run
  have hfifo := h.run.orderly.fifo
  rw [hempty, List.append_nil] at hfifo
  exact ⟨hempty, hfifo, fun x hx => hrest.returned h.run hx, hrest.waiting_or_left h.run⟩

/-- A pool that has taken its only task and is shut down rests where the call was accepted and the
worker has left. -/
theorem served_pool_rests :
    ∃ events s, Counted 1 1 8 0 events s ∧ Resting s ∧ acceptedIn events = [0] ∧
      (takenIn events).map (·.2) = [0] ∧ s.calls = [.busy (.returned true)] ∧
      s.workers = [.busy .left] := by
  have h0 : Counted 1 1 0 0 [] (create 1 1) := .start
  have h2 := (h0.asks (.submit _) (.submit _)).own_of_lt (.enter (i := 0) rfl rfl) (by decide)
  have h3 := h2.own_of_lt (.push (i := 0) rfl (.inl rfl) rfl (.nobody (by decide))) (by decide)
  have h4 := h3.own_of_lt (.pop (j := 0) rfl (.inl rfl) rfl (.nobody (by decide))) (by decide)
  have h6 := (h4.own_of_lt (.finish (j := 0) rfl) (by decide)).asks (.stop rfl) (.stop rfl)
  have h8 := (h6.own_of_lt (.flag rfl) (by decide)).own_of_lt (.notifyWorkers rfl) (by decide)
  have h10 := (h8.own_of_lt (.notifyCalls rfl) (by decide)).own_of_lt
    (.popEnds (j := 0) rfl (.inl rfl) rfl) (by decide)
  obtain ⟨_, _, hrest⟩ := pool_comes_to_rest h10
  refine ⟨_, _, h10, hrest.mpr ⟨rfl, rfl, fun x hx => ⟨true, ?_⟩, .inr ⟨rfl, fun x hx => ?_⟩⟩,
    rfl, rfl, rfl, rfl⟩
  · exact List.mem_singleton.mp hx
  · exact List.mem_singleton.mp hx

end ThreadPool

end Dpc
