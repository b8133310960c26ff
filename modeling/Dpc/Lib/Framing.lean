import Dpc.Lib.Failure
import Mathlib.Data.List.Forall2

/-! Frames whose length stands in a header of fixed size. -/

namespace Framing
open Effects

/-- A code whose frames begin with a header that tells how long they are. The decoder
takes exactly what the encoder makes. -/
structure Code (α β ε : Type) where
  headerSize : Nat
  frameSize : List β → Nat
  encode : α → Except ε (List β)
  decode : List β → Except ε α
  exact : ∀ {a frame}, decode frame = .ok a ↔ encode a = .ok frame
  header_pos : 0 < headerSize
  sized : ∀ {a frame}, encode a = .ok frame →
    headerSize ≤ frame.length ∧ frameSize (frame.take headerSize) = frame.length

variable {α β ε : Type} {c : Code α β ε}

/-- The data are the frames of the values, one after another. -/
def Written (c : Code α β ε) (as : List α) (data : List β) : Prop :=
  ∃ frames, List.Forall₂ (fun a frame => c.encode a = .ok frame) as frames ∧ data = frames.flatten

theorem written_nil {data : List β} : Written c [] data ↔ data = [] := by
  constructor
  · intro ⟨frames, h, hd⟩
    cases h
    exact hd
  · exact fun hd => ⟨[], .nil, hd⟩

theorem written_cons {a : α} {as : List α} {data : List β} :
    Written c (a :: as) data ↔
      ∃ frame rest, c.encode a = .ok frame ∧ Written c as rest ∧ data = frame ++ rest := by
  constructor
  · intro ⟨frames, h, hd⟩
    cases h with
    | cons hf hfs => exact ⟨_, _, hf, ⟨_, hfs, rfl⟩, hd⟩
  · intro ⟨frame, rest, hf, ⟨frames, hfs, hr⟩, hd⟩
    exact ⟨frame :: frames, .cons hf hfs, by rw [hd, hr, List.flatten_cons]⟩

theorem Written.append {as bs : List α} {x y : List β} (h : Written c as x) (h' : Written c bs y) :
    Written c (as ++ bs) (x ++ y) := by
  obtain ⟨frames, hf, rfl⟩ := h
  obtain ⟨frames', hf', rfl⟩ := h'
  exact ⟨frames ++ frames', List.rel_append hf hf', by rw [List.flatten_append]⟩

/-- No frame begins with another one. -/
theorem encode_inj_prefix {a b : α} {x y u v : List β} (h : c.encode a = .ok x)
    (h' : c.encode b = .ok y) (he : x ++ u = y ++ v) : a = b ∧ x = y := by
  obtain ⟨hx, hsx⟩ := c.sized h
  obtain ⟨hy, hsy⟩ := c.sized h'
  have htake : x.take c.headerSize = y.take c.headerSize := by
    rw [← @List.take_append_of_le_length _ x u _ hx, he, List.take_append_of_le_length hy]
  have hlen : x.length = y.length := by rw [← hsx, htake, hsy]
  have hxy : x = y := (List.append_inj he hlen).1
  subst hxy
  have hd := c.exact.mpr h
  rw [c.exact.mpr h'] at hd
  exact ⟨(Except.ok.inj hd).symm, rfl⟩

/-- What is written in a first part of the data is a first part of what is written. -/
theorem Written.prefix_of_prefix {as bs : List α} {x y : List β} (h : Written c as x)
    (h' : Written c bs y) (hp : x <+: y) : as <+: bs := by
  induction as generalizing bs x y with
  | nil => exact List.nil_prefix
  | cons a as ih =>
    obtain ⟨frame, rest, hf, hrest, rfl⟩ := written_cons.mp h
    obtain ⟨more, hp⟩ := hp
    cases bs with
    | nil =>
      rw [written_nil] at h'
      subst h'
      have hlen := congrArg List.length hp
      have h1 := (c.sized hf).1
      have h2 := c.header_pos
      simp only [List.length_append, List.length_nil] at hlen
      omega
    | cons b bs =>
      obtain ⟨frame', rest', hf', hrest', rfl⟩ := written_cons.mp h'
      rw [List.append_assoc] at hp
      obtain ⟨rfl, rfl⟩ := encode_inj_prefix hf hf' hp
      have hrest_prefix : rest <+: rest' := ⟨more, List.append_cancel_left hp⟩
      obtain ⟨tail, ht⟩ := ih hrest hrest' hrest_prefix
      exact ⟨tail, by rw [List.cons_append, ht]⟩

/-- What follows written data in written data is written itself. -/
theorem Written.rest {as bs : List α} {x y : List β} (h : Written c as x)
    (h' : Written c bs (x ++ y)) : ∃ cs, Written c cs y := by
  induction as generalizing bs x with
  | nil =>
    rw [written_nil.mp h] at h'
    exact ⟨bs, h'⟩
  | cons a as ih =>
    obtain ⟨frame, rest, hf, hrest, rfl⟩ := written_cons.mp h
    obtain ⟨tail, rfl⟩ := h.prefix_of_prefix h' (List.prefix_append _ y)
    obtain ⟨frame', rest', hf', hrest', he⟩ := written_cons.mp h'
    rw [hf, Except.ok.injEq] at hf'
    rw [← hf', List.append_assoc, List.append_cancel_left_eq] at he
    exact ih hrest (he ▸ hrest')

end Framing
