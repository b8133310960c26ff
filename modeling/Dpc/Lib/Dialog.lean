import Dpc.Lib.Pool

/-! A client that asks and waits, a server that answers, and between them two streams of bytes. -/

namespace Dialog
open Effects

variable {σ ι ε β ε' ρ : Type}

/-- The bytes after which a reader has read enough: before, it asks for no more than is left. -/
structure Framed (need : List β → Nat) (frame : List β) : Prop where
  ends : need frame = 0
  goes : ∀ got rest, frame = got ++ rest → rest ≠ [] → 0 < need got ∧ need got ≤ rest.length

/-- A client asks, and goes on as it is answered, or ends when the connection is closed. -/
inductive Client (β ε' ρ : Type) where
  | done (result : Except ε' ρ)
  | ask (request : List β) (k : List β → Client β ε' ρ) (closed : Except ε' ρ)

namespace Client

/-- What a client ends with whose connection is closed. -/
def alone : Client β ε' ρ → Except ε' ρ
  | .done x => x
  | .ask _ _ closed => closed

/-- A server answers, and goes on listening or not; one that throws closes the connection. -/
def calls (serve : List β → Prog σ ι ε (List β × Bool)) : Client β ε' ρ → Prog σ ι ε (Except ε' ρ)
  | .done x => .pure x
  | .ask request k closed => (serve request).attempt.bind fun
    | .ok (reply, true) => (k reply).calls serve
    | .ok (reply, false) => .pure (k reply).alone
    | .error _ => .pure closed

/-- All that a client sends is framed. -/
def Sends (need : List β → Nat) : Client β ε' ρ → Prop
  | .done _ => True
  | .ask request k _ => Framed need request ∧ ∀ reply, (k reply).Sends need

end Client

/-- How far a client is: what it has still to send, and what it has of the answer. -/
inductive Talk (β ε' ρ : Type) where
  | asking (rest got : List β) (k : List β → Client β ε' ρ) (closed : Except ε' ρ)
  | ended (result : Except ε' ρ)

def Client.begin : Client β ε' ρ → Talk β ε' ρ
  | .done x => .ended x
  | .ask request k closed => .asking request [] k closed

inductive Server (σ ι ε β : Type) where
  | listening (got : List β)
  | working (p : Prog σ ι ε (List β × Bool))
  | answering (rest : List β) (keeps : Bool)
  | closed

/-- What a server does when so much of its answer is left. -/
def Server.after : List β → Bool → Server σ ι ε β
  | [], true => .listening []
  | [], false => .closed
  | b :: rest, keeps => .answering (b :: rest) keeps

/-- Both ends of a connection, the bytes under way to the server and to the client, and the state on
which the server works. -/
structure Connection (σ ι ε β ε' ρ : Type) where
  client : Talk β ε' ρ
  server : Server σ ι ε β
  up : List β
  down : List β
  state : σ

variable [Effect ι σ ε] {need : List β → Nat} {serve : List β → Prog σ ι ε (List β × Bool)}

/-- One write or read of some bytes, one atomic step of the server's work, or a turn to the next
thing to do. -/
inductive Step (need : List β → Nat) (serve : List β → Prog σ ι ε (List β × Bool)) :
    Connection σ ι ε β ε' ρ → Connection σ ι ε β ε' ρ → Prop where
  | send {unsent sent rest up down : List β} {k : List β → Client β ε' ρ} {x : Except ε' ρ}
      {server : Server σ ι ε β} {s : σ} (hu : unsent = sent ++ rest) (hs : sent ≠ []) :
      Step need serve ⟨.asking unsent [] k x, server, up, down, s⟩
        ⟨.asking rest [] k x, server, up ++ sent, down, s⟩
  | hear {client : Talk β ε' ρ} {got heard up rest down : List β} {s : σ} (hu : up = heard ++ rest)
      (hh : heard ≠ []) (hn : heard.length ≤ need got) :
      Step need serve ⟨client, .listening got, up, down, s⟩
        ⟨client, .listening (got ++ heard), rest, down, s⟩
  | take {client : Talk β ε' ρ} {got up down : List β} {s : σ} (hn : need got = 0) :
      Step need serve ⟨client, .listening got, up, down, s⟩
        ⟨client, .working (serve got), up, down, s⟩
  | work {client : Talk β ε' ρ} {up down : List β} {p p' : Prog σ ι ε (List β × Bool)}
      {l : Option ι} {s s' : σ} (hp : Prog.Step p s l p' s') :
      Step need serve ⟨client, .working p, up, down, s⟩ ⟨client, .working p', up, down, s'⟩
  | answer {client : Talk β ε' ρ} {up down reply : List β} {keeps : Bool} {s : σ} :
      Step need serve ⟨client, .working (.pure (reply, keeps)), up, down, s⟩
        ⟨client, .after reply keeps, up, down, s⟩
  | fail {client : Talk β ε' ρ} {up down : List β} {e : ε} {s : σ} :
      Step need serve ⟨client, .working (.throw e), up, down, s⟩ ⟨client, .closed, up, down, s⟩
  | reply {client : Talk β ε' ρ} {unsent sent rest up down : List β} {keeps : Bool} {s : σ}
      (hu : unsent = sent ++ rest) (hs : sent ≠ []) :
      Step need serve ⟨client, .answering unsent keeps, up, down, s⟩
        ⟨client, .after rest keeps, up, down ++ sent, s⟩
  | receive {k : List β → Client β ε' ρ} {x : Except ε' ρ} {server : Server σ ι ε β}
      {got heard up down rest : List β} {s : σ} (hd : down = heard ++ rest) (hh : heard ≠ [])
      (hn : heard.length ≤ need got) :
      Step need serve ⟨.asking [] got k x, server, up, down, s⟩
        ⟨.asking [] (got ++ heard) k x, server, up, rest, s⟩
  | go {k : List β → Client β ε' ρ} {x : Except ε' ρ} {server : Server σ ι ε β}
      {got up down : List β} {s : σ} (hn : need got = 0) :
      Step need serve ⟨.asking [] got k x, server, up, down, s⟩
        ⟨(k got).begin, server, up, down, s⟩
  | lose {k : List β → Client β ε' ρ} {x : Except ε' ρ} {unsent got up : List β} {s : σ}
      (hn : 0 < need got) :
      Step need serve ⟨.asking unsent got k x, .closed, up, [], s⟩ ⟨.ended x, .closed, up, [], s⟩

abbrev Reaches (need : List β → Nat) (serve : List β → Prog σ ι ε (List β × Bool)) :
    Connection σ ι ε β ε' ρ → Connection σ ι ε β ε' ρ → Prop :=
  Relation.ReflTransGen (Step need serve)

/-- A client connects to a server that listens. -/
def Client.connect (c : Client β ε' ρ) (s : σ) : Connection σ ι ε β ε' ρ :=
  ⟨c.begin, .listening [], [], [], s⟩

section Leads

variable {α γ : Type}

/-- A program alone gets from one point to another. -/
inductive Leads (p : Prog σ ι ε α) (s : σ) : Prog σ ι ε α → σ → Prop where
  | refl : Leads p s p s
  | tail {q r : Prog σ ι ε α} {t u : σ} {l : Option ι} (h : Leads p s q t)
      (hs : Prog.Step q t l r u) : Leads p s r u

theorem step_exec {p q : Prog σ ι ε α} {s t : σ} {l : Option ι} (h : Prog.Step p s l q t) :
    p.exec s = q.exec t := by
  cases h with
  | look k => rfl
  | act i k _ _ ha => simp only [Prog.exec, ha]
  | fail i k _ e ha => simp only [Prog.exec, ha]

theorem step_cut {p q : Prog σ ι ε α} {s t u : σ} {l : Option ι} {is : List ι}
    (h : Prog.Step p s l q t) (hc : Prog.Cut q t is u) : ∃ is, Prog.Cut p s is u := by
  cases h with
  | look k => exact ⟨is, .look hc⟩
  | act i k _ _ ha => exact ⟨i :: is, .act ha hc⟩
  | fail i k _ e ha => exact ⟨is, .fail ha hc⟩

theorem Leads.trans {p q r : Prog σ ι ε α} {s t u : σ} (h : Leads p s q t) (h' : Leads q t r u) :
    Leads p s r u := by
  induction h' with
  | refl => exact h
  | tail _ hs ih => exact .tail ih hs

theorem Leads.exec {p q : Prog σ ι ε α} {s t : σ} (h : Leads p s q t) : p.exec s = q.exec t := by
  induction h with
  | refl => rfl
  | tail _ hs ih => rw [ih, step_exec hs]

theorem Leads.cut {p q : Prog σ ι ε α} {s t : σ} (h : Leads p s q t) :
    ∃ is, Prog.Cut p s is t := by
  have hall : ∀ u is, Prog.Cut q t is u → ∃ is, Prog.Cut p s is u := by
    induction h with
    | refl => exact fun u is hc => ⟨is, hc⟩
    | tail _ hs ih =>
      intro u is hc
      obtain ⟨is', hc'⟩ := step_cut hs hc
      exact ih u is' hc'
  exact hall t [] (.stop q t)

/-- What follows a program that may throw does not matter for its steps. -/
theorem step_attempt {p q : Prog σ ι ε α} {s t : σ} {l : Option ι} (h : Prog.Step p s l q t)
    (f : Except ε α → Prog σ ι ε γ) :
    Prog.Step (p.attempt.bind f) s l (q.attempt.bind f) t := by
  cases h with
  | look k => exact .look _ _
  | act i k _ _ ha => exact .act i _ _ _ ha
  | fail i k _ e ha => exact .fail i _ _ e ha

end Leads

/-- How a client goes on with what the server has done. -/
def answered (serve : List β → Prog σ ι ε (List β × Bool)) (k : List β → Client β ε' ρ)
    (closed : Except ε' ρ) : Except ε (List β × Bool) → Prog σ ι ε (Except ε' ρ)
  | .ok (reply, true) => (k reply).calls serve
  | .ok (reply, false) => .pure (k reply).alone
  | .error _ => .pure closed

omit [Effect ι σ ε] in
theorem calls_ask {request : List β} {k : List β → Client β ε' ρ} {closed : Except ε' ρ} :
    (Client.ask request k closed).calls serve =
      (serve request).attempt.bind (answered serve k closed) := by
  rw [Client.calls]
  rfl

/-- All that a server may answer is framed. -/
def Answers (need : List β → Nat) (p : Prog σ ι ε (List β × Bool)) (s : σ) : Prop :=
  ∀ reply keeps t, p.exec s = (.ok (reply, keeps), t) → Framed need reply

/-- The calls that a connection has still to make. -/
inductive Owes (need : List β → Nat) (serve : List β → Prog σ ι ε (List β × Bool)) :
    Prog σ ι ε (Except ε' ρ) → Connection σ ι ε β ε' ρ → Prop where
  | asking {k : List β → Client β ε' ρ} {x : Except ε' ρ} {request heard up rest : List β} {s : σ}
      (hf : Framed need request) (hk : ∀ reply, (k reply).Sends need)
      (hr : request = heard ++ (up ++ rest)) :
      Owes need serve ((serve request).attempt.bind (answered serve k x))
        ⟨.asking rest [] k x, .listening heard, up, [], s⟩
  | working {k : List β → Client β ε' ρ} {x : Except ε' ρ} {p : Prog σ ι ε (List β × Bool)} {s : σ}
      (hp : Answers need p s) (hk : ∀ reply, (k reply).Sends need) :
      Owes need serve (p.attempt.bind (answered serve k x))
        ⟨.asking [] [] k x, .working p, [], [], s⟩
  | answering {k : List β → Client β ε' ρ} {x : Except ε' ρ} {reply heard down rest : List β}
      {keeps : Bool} {s : σ} (hf : Framed need reply) (hk : ∀ reply, (k reply).Sends need)
      (hr : reply = heard ++ (down ++ rest)) :
      Owes need serve (answered serve k x (.ok (reply, keeps)))
        ⟨.asking [] heard k x, .after rest keeps, [], down, s⟩
  | lost {k : List β → Client β ε' ρ} {x : Except ε' ρ} {rest up : List β} {s : σ} :
      Owes need serve (.pure x) ⟨.asking rest [] k x, .closed, up, [], s⟩
  | ended {x : Except ε' ρ} {server : Server σ ι ε β} {up down : List β} {s : σ}
      (hs : server = .listening [] ∧ up = [] ∨ server = .closed) :
      Owes need serve (.pure x) ⟨.ended x, server, up, down, s⟩

section After

omit [Effect ι σ ε]

variable {rest got : List β} {keeps : Bool}

theorem after_listening (h : (.listening got : Server σ ι ε β) = .after rest keeps) :
    rest = [] ∧ got = [] := by
  cases rest with
  | nil =>
    cases keeps with
    | true => exact ⟨rfl, Server.listening.inj h⟩
    | false => cases h
  | cons b rest => cases h

theorem after_answering {unsent : List β} {goes : Bool}
    (h : (.answering unsent goes : Server σ ι ε β) = .after rest keeps) :
    unsent = rest ∧ goes = keeps := by
  cases rest with
  | nil => cases keeps <;> cases h
  | cons b rest => exact Server.answering.inj h

theorem after_closed (h : (.closed : Server σ ι ε β) = .after rest keeps) :
    rest = [] ∧ keeps = false := by
  cases rest with
  | nil =>
    cases keeps with
    | true => cases h
    | false => exact ⟨rfl, rfl⟩
  | cons b rest => cases h

theorem after_ne_working {p : Prog σ ι ε (List β × Bool)} :
    (.after rest keeps : Server σ ι ε β) ≠ .working p := by
  intro h
  cases rest with
  | nil => cases keeps <;> cases h
  | cons b rest => cases h

end After

section Phases

variable {k : List β → Client β ε' ρ} {x : Except ε' ρ} {heard up down rest : List β} {keeps : Bool}
  {s : σ} {d : Connection σ ι ε β ε' ρ}

/-- There is as much to send and to read as there was, but for what was sent or read. -/
def Fewer (moving rest moving' rest' : List β) : Prop :=
  2 * rest'.length + moving'.length < 2 * rest.length + moving.length

theorem fewer_sent {sent more : List β} (hu : rest = sent ++ more) (hs : sent ≠ []) :
    Fewer up rest (up ++ sent) more := by
  have hpos := List.length_pos_iff.mpr hs
  rw [Fewer, hu, List.length_append, List.length_append]
  omega

theorem fewer_read {read more : List β} (hu : up = read ++ more) (hr : read ≠ []) :
    Fewer up rest more rest := by
  have hpos := List.length_pos_iff.mpr hr
  rw [Fewer, hu, List.length_append]
  omega

/-- A reader that needs nothing has the frame, and nothing is left of it. -/
theorem Framed.all {frame : List β} (hf : Framed need frame) (hr : frame = heard ++ (up ++ rest))
    (hn : need heard = 0) : up = [] ∧ rest = [] ∧ heard = frame := by
  have hrest : up ++ rest = [] := Classical.byContradiction fun hne =>
    absurd hn (Nat.ne_of_gt (hf.goes _ _ hr hne).1)
  obtain ⟨rfl, rfl⟩ := List.append_eq_nil_iff.mp hrest
  rw [List.append_nil, List.append_nil] at hr
  exact ⟨rfl, rfl, hr.symm⟩

theorem step_asking {request : List β} (hneed : 0 < need []) (hf : Framed need request)
    (hr : request = heard ++ (up ++ rest))
    (hs : Step need serve ⟨.asking rest [] k x, .listening heard, up, [], s⟩ d) :
    (∃ heard' up' rest', request = heard' ++ (up' ++ rest') ∧ Fewer up rest up' rest' ∧
      d = ⟨.asking rest' [] k x, .listening heard', up', [], s⟩) ∨
    d = ⟨.asking [] [] k x, .working (serve request), [], [], s⟩ := by
  cases hs with
  | send hu hs =>
    refine .inl ⟨_, _, _, ?_, fewer_sent hu hs, rfl⟩
    rw [hr, hu, List.append_assoc]
  | hear hu hh hn =>
    refine .inl ⟨_, _, _, ?_, fewer_read hu hh, rfl⟩
    rw [hr, hu, List.append_assoc, List.append_assoc]
  | take hn =>
    obtain ⟨rfl, rfl, rfl⟩ := hf.all hr hn
    exact .inr rfl
  | receive hd hh hn => exact absurd (List.append_eq_nil_iff.mp hd.symm).1 hh
  | go hn => exact absurd hn (Nat.ne_of_gt hneed)

theorem step_working {p : Prog σ ι ε (List β × Bool)} (hneed : 0 < need [])
    (hs : Step need serve ⟨.asking [] [] k x, .working p, [], [], s⟩ d) :
    (∃ l p' t, Prog.Step p s l p' t ∧ d = ⟨.asking [] [] k x, .working p', [], [], t⟩) ∨
    (∃ reply keeps, p = .pure (reply, keeps) ∧
      d = ⟨.asking [] [] k x, .after reply keeps, [], [], s⟩) ∨
    (∃ e, p = .throw e ∧ d = ⟨.asking [] [] k x, .closed, [], [], s⟩) := by
  cases hs with
  | send hu hs => exact absurd (List.append_eq_nil_iff.mp hu.symm).1 hs
  | work hstep => exact .inl ⟨_, _, _, hstep, rfl⟩
  | answer => exact .inr (.inl ⟨_, _, rfl, rfl⟩)
  | fail => exact .inr (.inr ⟨_, rfl, rfl⟩)
  | receive hd hh hn => exact absurd (List.append_eq_nil_iff.mp hd.symm).1 hh
  | go hn => exact absurd hn (Nat.ne_of_gt hneed)

theorem step_answering {reply : List β} (hneed : 0 < need []) (hf : Framed need reply)
    (hr : reply = heard ++ (down ++ rest))
    (hs : Step need serve ⟨.asking [] heard k x, .after rest keeps, [], down, s⟩ d) :
    (∃ heard' down' rest', reply = heard' ++ (down' ++ rest') ∧ Fewer down rest down' rest' ∧
      d = ⟨.asking [] heard' k x, .after rest' keeps, [], down', s⟩) ∨
    d = ⟨(k reply).begin, .after [] keeps, [], [], s⟩ := by
  generalize hserver : (.after rest keeps : Server σ ι ε β) = server at hs
  cases hs with
  | send hu hs => exact absurd (List.append_eq_nil_iff.mp hu.symm).1 hs
  | hear hu hh hn => exact absurd (List.append_eq_nil_iff.mp hu.symm).1 hh
  | take hn =>
    obtain ⟨_, rfl⟩ := after_listening hserver.symm
    exact absurd hn (Nat.ne_of_gt hneed)
  | work hstep => exact absurd hserver after_ne_working
  | answer => exact absurd hserver after_ne_working
  | fail => exact absurd hserver after_ne_working
  | reply hu hs =>
    obtain ⟨rfl, rfl⟩ := after_answering hserver.symm
    refine .inl ⟨_, _, _, ?_, fewer_sent hu hs, rfl⟩
    rw [hr, hu, List.append_assoc]
  | receive hd hh hn =>
    subst hserver
    refine .inl ⟨_, _, _, ?_, fewer_read hd hh, rfl⟩
    rw [hr, hd, List.append_assoc, List.append_assoc]
  | go hn =>
    obtain ⟨rfl, rfl, rfl⟩ := hf.all hr hn
    subst hserver
    exact .inr rfl
  | lose hn =>
    -- a server that has closed has sent all of its answer, and the client has it
    obtain ⟨rfl, _⟩ := after_closed hserver.symm
    rw [List.append_nil, List.append_nil] at hr
    rw [← hr, hf.ends] at hn
    exact absurd hn (Nat.lt_irrefl 0)

theorem step_lost (hneed : 0 < need [])
    (hs : Step need serve ⟨.asking rest [] k x, .closed, up, [], s⟩ d) :
    (∃ up' rest', Fewer up rest up' rest' ∧ d = ⟨.asking rest' [] k x, .closed, up', [], s⟩) ∨
    d = ⟨.ended x, .closed, up, [], s⟩ := by
  cases hs with
  | send hu hs => exact .inl ⟨_, _, fewer_sent hu hs, rfl⟩
  | receive hd hh hn => exact absurd (List.append_eq_nil_iff.mp hd.symm).1 hh
  | go hn => exact absurd hn (Nat.ne_of_gt hneed)
  | lose hn => exact .inr rfl

theorem not_step_ended {server : Server σ ι ε β} (hneed : 0 < need [])
    (hserver : server = .listening [] ∧ up = [] ∨ server = .closed) :
    ¬Step need serve ⟨.ended x, server, up, down, s⟩ d := by
  intro hs
  rcases hserver with ⟨rfl, rfl⟩ | rfl
  · cases hs with
    | hear hu hh hn => exact absurd (List.append_eq_nil_iff.mp hu.symm).1 hh
    | take hn => exact absurd hn (Nat.ne_of_gt hneed)
  · cases hs

end Phases

variable {c d : Connection σ ι ε β ε' ρ} {q : Prog σ ι ε (Except ε' ρ)}

/-- A client whose answer has come, or who knows that none will, goes on. -/
theorem Owes.begin {client : Client β ε' ρ} (hc : client.Sends need) (keeps : Bool) (s : σ) :
    Owes need serve (if keeps then client.calls serve else .pure client.alone)
      ⟨client.begin, .after [] keeps, [], [], s⟩ := by
  cases keeps with
  | true =>
    cases client with
    | done x => exact .ended (.inl ⟨rfl, rfl⟩)
    | ask request k closed =>
      have hr : request = [] ++ ([] ++ request) := rfl
      rw [if_pos rfl, calls_ask]
      exact .asking hc.1 hc.2 hr
  | false =>
    cases client with
    | done x => exact .ended (.inr rfl)
    | ask request k closed => exact .lost

/-- The step lemma: bytes that move change nothing that is owed; what the server does is a step of
the calls. -/
theorem Owes.step (hneed : 0 < need [])
    (hserve : ∀ request s, Framed need request → Answers need (serve request) s)
    (h : Owes need serve q c) (hs : Step need serve c d) :
    ∃ q', Leads q c.state q' d.state ∧ Owes need serve q' d := by
  cases h with
  | asking hf hk hr =>
    rcases step_asking hneed hf hr hs with ⟨_, _, _, hr', _, rfl⟩ | rfl
    · exact ⟨_, .refl, .asking hf hk hr'⟩
    · exact ⟨_, .refl, .working (hserve _ _ hf) hk⟩
  | working hp hk =>
    rcases step_working hneed hs with ⟨_, _, _, hstep, rfl⟩ | ⟨reply, keeps, rfl, rfl⟩ | ⟨_, rfl, rfl⟩
    · refine ⟨_, .tail (.refl) (step_attempt hstep _), .working (fun reply keeps t ht => ?_) hk⟩
      exact hp reply keeps t (by rw [step_exec hstep, ht])
    · have hr : reply = [] ++ ([] ++ reply) := rfl
      exact ⟨_, .refl, .answering (hp reply keeps _ rfl) hk hr⟩
    · exact ⟨_, .refl, .lost⟩
  | @answering k x reply _ _ _ keeps s hf hk hr =>
    rcases step_answering hneed hf hr hs with ⟨_, _, _, hr', _, rfl⟩ | rfl
    · exact ⟨_, .refl, .answering hf hk hr'⟩
    · refine ⟨_, .refl, ?_⟩
      have hnext : Owes need serve _ ⟨(k reply).begin, .after [] keeps, [], [], s⟩ :=
        .begin (hk reply) keeps s
      cases keeps with
      | true => exact hnext
      | false => exact hnext
  | lost =>
    rcases step_lost hneed hs with ⟨_, _, _, rfl⟩ | rfl
    · exact ⟨_, .refl, .lost⟩
    · exact ⟨_, .refl, .ended (.inr rfl)⟩
  | ended hserver => exact absurd hs (not_step_ended hneed hserver)

/-- While the client has not ended, something can be done. -/
theorem Owes.progress (hneed : 0 < need []) (h : Owes need serve q c) :
    (∃ x, c.client = .ended x) ∨ ∃ d, Step need serve c d := by
  cases h with
  | @asking k x request heard up rest s hf hk hr =>
    refine .inr ?_
    cases rest with
    | cons b rest => exact ⟨_, .send (List.append_nil _).symm (List.cons_ne_nil b rest)⟩
    | nil =>
      cases up with
      | cons b up =>
        have hn := (hf.goes _ _ hr (List.cons_ne_nil b _)).1
        have hb : b :: up = [b] ++ up := rfl
        exact ⟨_, .hear hb (List.cons_ne_nil b []) hn⟩
      | nil =>
        rw [List.append_nil, List.append_nil] at hr
        exact ⟨_, .take (hr ▸ hf.ends)⟩
  | @working k x p s hp hk =>
    refine .inr ?_
    cases p with
    | pure answer => exact ⟨_, .answer⟩
    | throw e => exact ⟨_, .fail⟩
    | look k => exact ⟨_, .work (.look k s)⟩
    | act i k =>
      cases ha : Effect.apply i s with
      | ok t => exact ⟨_, .work (.act i k s t ha)⟩
      | error e => exact ⟨_, .work (.fail i k s e ha)⟩
  | @answering k x reply heard down rest keeps s hf hk hr =>
    refine .inr ?_
    cases rest with
    | cons b rest => exact ⟨_, .reply (List.append_nil _).symm (List.cons_ne_nil b rest)⟩
    | nil =>
      cases down with
      | cons b down =>
        have hn := (hf.goes _ _ hr (List.cons_ne_nil b _)).1
        have hb : b :: down = [b] ++ down := rfl
        exact ⟨_, .receive hb (List.cons_ne_nil b []) hn⟩
      | nil =>
        rw [List.append_nil, List.append_nil] at hr
        exact ⟨_, .go (hr ▸ hf.ends)⟩
  | lost => exact .inr ⟨_, .lose hneed⟩
  | ended hs => exact .inl ⟨_, rfl⟩

/-- There is no endless run from here. -/
def Ends (need : List β → Nat) (serve : List β → Prog σ ι ε (List β × Bool))
    (c : Connection σ ι ε β ε' ρ) : Prop := Acc (fun d c => Step need serve c d) c

section Ends

variable {k : List β → Client β ε' ρ} {x : Except ε' ρ} {heard up down rest : List β} {s : σ}

theorem ends_ended {server : Server σ ι ε β} (hneed : 0 < need [])
    (hserver : server = .listening [] ∧ up = [] ∨ server = .closed) :
    Ends need serve ⟨.ended x, server, up, down, s⟩ :=
  .intro _ fun _ hs => absurd hs (not_step_ended hneed hserver)

theorem ends_lost (hneed : 0 < need []) :
    Ends need serve ⟨.asking rest [] k x, .closed, up, [], s⟩ := by
  induction hlen : 2 * rest.length + up.length using Nat.strongRecOn generalizing rest up with
  | ind n ih =>
    refine .intro _ fun d hs => ?_
    rcases step_lost hneed hs with ⟨_, _, hfewer, rfl⟩ | rfl
    · exact ih _ (hlen ▸ hfewer) rfl
    · exact ends_ended hneed (.inr rfl)

/-- Each byte of an answer is sent once and read once. -/
theorem ends_answering {reply : List β} {keeps : Bool} (hneed : 0 < need [])
    (hf : Framed need reply) (hr : reply = heard ++ (down ++ rest))
    (hnext : Ends need serve ⟨(k reply).begin, .after [] keeps, [], [], s⟩) :
    Ends need serve ⟨.asking [] heard k x, .after rest keeps, [], down, s⟩ := by
  induction hlen : 2 * rest.length + down.length using Nat.strongRecOn
    generalizing heard down rest with
  | ind n ih =>
    refine .intro _ fun d hs => ?_
    rcases step_answering hneed hf hr hs with ⟨_, _, _, hr', hfewer, rfl⟩ | rfl
    · exact ih _ (hlen ▸ hfewer) hr' rfl
    · exact hnext

variable (hneed : 0 < need []) (hnext : ∀ reply keeps s,
  Ends need serve ⟨(k reply).begin, .after [] keeps, [], [], s⟩)

include hneed hnext

/-- A program has an end. -/
theorem ends_working {p : Prog σ ι ε (List β × Bool)} (hp : Answers need p s) :
    Ends need serve ⟨.asking [] [] k x, .working p, [], [], s⟩ := by
  have hpure : ∀ {q : Prog σ ι ε (List β × Bool)} {t : σ}, (∀ l q' u, ¬Prog.Step q t l q' u) →
      Answers need q t → Ends need serve ⟨.asking [] [] k x, .working q, [], [], t⟩ := by
    intro q t hq hanswers
    refine .intro _ fun d hs => ?_
    rcases step_working hneed hs with ⟨_, _, _, hstep, _⟩ | ⟨reply, keeps, rfl, rfl⟩ | ⟨_, rfl, rfl⟩
    · exact absurd hstep (hq _ _ _)
    · have hr : reply = [] ++ ([] ++ reply) := rfl
      exact ends_answering hneed (hanswers reply keeps _ rfl) hr (hnext reply keeps t)
    · exact ends_lost hneed
  induction p generalizing s with
  | pure answer => exact hpure (fun _ _ _ hstep => by cases hstep) hp
  | throw e => exact hpure (fun _ _ _ hstep => by cases hstep) hp
  | look f ih =>
    refine .intro _ fun d hs => ?_
    rcases step_working hneed hs with ⟨_, _, _, hstep, rfl⟩ | ⟨_, _, he, _⟩ | ⟨_, he, _⟩
    · cases hstep
      exact ih _ hp
    · cases he
    · cases he
  | act i f ih =>
    refine .intro _ fun d hs => ?_
    rcases step_working hneed hs with ⟨_, _, _, hstep, rfl⟩ | ⟨_, _, he, _⟩ | ⟨_, he, _⟩
    · have hanswers : ∀ {q t l}, Prog.Step (.act i f) s l q t → Answers need q t :=
        fun hstep reply keeps u hu => hp reply keeps u (by rw [step_exec hstep, hu])
      have hq := hanswers hstep
      cases hstep with
      | act _ _ _ _ ha => exact ih _ hq
      | fail _ _ _ _ ha => exact ih _ hq
    · cases he
    · cases he

theorem ends_asking {request : List β}
    (hserve : ∀ request s, Framed need request → Answers need (serve request) s)
    (hf : Framed need request) (hr : request = heard ++ (up ++ rest)) :
    Ends need serve ⟨.asking rest [] k x, .listening heard, up, [], s⟩ := by
  induction hlen : 2 * rest.length + up.length using Nat.strongRecOn
    generalizing heard up rest with
  | ind n ih =>
    refine .intro _ fun d hs => ?_
    rcases step_asking hneed hf hr hs with ⟨_, _, _, hr', hfewer, rfl⟩ | rfl
    · exact ih _ (hlen ▸ hfewer) hr' rfl
    · exact ends_working hneed hnext (hserve _ _ hf)

end Ends

/-- A client has an end, wherever the bytes are split and whatever the server answers. -/
theorem ends_begin (hneed : 0 < need [])
    (hserve : ∀ request s, Framed need request → Answers need (serve request) s)
    {client : Client β ε' ρ} (hc : client.Sends need) (keeps : Bool) (s : σ) :
    Ends need serve ⟨client.begin, .after [] keeps, [], [], s⟩ := by
  induction client generalizing keeps s with
  | done x =>
    cases keeps with
    | true => exact ends_ended hneed (.inl ⟨rfl, rfl⟩)
    | false => exact ends_ended hneed (.inr rfl)
  | ask request k closed ih =>
    cases keeps with
    | true =>
      have hr : request = [] ++ ([] ++ request) := rfl
      exact ends_asking hneed (fun reply keeps s => ih reply (hc.2 reply) keeps s) hserve hc.1 hr
    | false => exact ends_lost hneed

/-- A connection does what the calls of its client do, one after another: wherever a run has got to,
the state is one that they pass, and when the client has ended, it has what they give. A run does not
stop before, and does not go on for ever. -/
theorem Reaches.calls (hneed : 0 < need [])
    (hserve : ∀ request s, Framed need request → Answers need (serve request) s)
    {client : Client β ε' ρ} (hc : client.Sends need) {s : σ}
    (h : Reaches need serve (client.connect s) c) :
    (∃ is, Prog.Cut (client.calls serve) s is c.state) ∧
    (∀ x, c.client = .ended x → (client.calls serve).exec s = (.ok x, c.state)) ∧
    ((∃ x, c.client = .ended x) ∨ ∃ d, Step need serve c d) ∧ Ends need serve c := by
  have hrun : (∃ q, Leads (client.calls serve) s q c.state ∧ Owes need serve q c) ∧
      Ends need serve c := by
    induction h with
    | refl => exact ⟨⟨_, .refl, .begin hc true s⟩, ends_begin hneed hserve hc true s⟩
    | tail _ hs ih =>
      obtain ⟨⟨q, hleads, howes⟩, hends⟩ := ih
      obtain ⟨q', hleads', howes'⟩ := howes.step hneed hserve hs
      exact ⟨⟨q', hleads.trans hleads', howes'⟩, hends.inv hs⟩
  obtain ⟨⟨q, hleads, howes⟩, hends⟩ := hrun
  refine ⟨hleads.cut, fun x hx => ?_, howes.progress hneed, hends⟩
  rw [hleads.exec]
  cases howes with
  | ended hs =>
    cases hx
    rfl
  | asking hf hk hr => cases hx
  | working hp hk => cases hx
  | answering hf hk hr => cases hx
  | lost => cases hx

/-- Every run can be continued until the client has ended. -/
theorem Reaches.finishes (hneed : 0 < need [])
    (hserve : ∀ request s, Framed need request → Answers need (serve request) s)
    {client : Client β ε' ρ} (hc : client.Sends need) {s : σ}
    (h : Reaches need serve (client.connect s) c) :
    ∃ d x, Reaches need serve c d ∧ d.client = .ended x := by
  have hends := (h.calls hneed hserve hc).2.2.2
  induction hends with
  | intro c _ ih =>
    obtain ⟨_, _, hprogress, _⟩ := h.calls hneed hserve hc
    rcases hprogress with ⟨x, hx⟩ | ⟨d, hs⟩
    · exact ⟨c, x, .refl, hx⟩
    · obtain ⟨d', x, hd, hx⟩ := ih d hs (h.tail hs)
      exact ⟨d', x, .head hs hd, hx⟩

end Dialog
