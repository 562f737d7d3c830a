import SimControl.Send
/-!
# A send queue hands over its stream in order

A send queue keeps its bytes in a buffer with the offset of the next one to hand over, and
queueing new data first drops the bytes already handed over. Seen through `pending`, the bytes
from the offset on, every operation is one of a first-in first-out queue: an input appends its
data (`pending_input`), a poll hands over the first byte or changes nothing (`poll_eq`), and a
clear empties it. So over any run of operations the bytes handed over are a prefix of the stream
of data queued, less at each clear the bytes still waiting then, and what waits is the rest of
that stream; the offset never passes the end of the buffer (`send_stream_in_order`).

* `Accounts`: what was handed over and what waits make up the stream; kept by every operation
  (`Accounts.step`) and so by every run (`Accounts.run`).
-/

namespace SimControl.SendQueue

/-! ## Each operation through the bytes waiting -/

@[simp] theorem pending_clear (q : SendQueue) : q.clear.pending = [] := rfl

@[simp] theorem extoff_clear (q : SendQueue) : q.clear.extoff = 0 := rfl

@[simp] theorem extoff_input (q : SendQueue) (data : List UInt8) (after delay : Nat) (now : Int) :
    (q.input data after delay now).extoff = 0 := by
  unfold input
  by_cases h : q.extoff = 0 <;> simp [h]

/-- Queueing data appends it to the bytes waiting, whether or not the buffer was compacted. -/
theorem pending_input (q : SendQueue) (data : List UInt8) (after delay : Nat) (now : Int) :
    (q.input data after delay now).pending = q.pending ++ data := by
  unfold input pending
  by_cases h : q.extoff = 0 <;> simp [h]

/-- A poll looks only at the first byte waiting: none means idle; otherwise it is handed over
once due, and the offset moves past it. -/
theorem poll_eq (q : SendQueue) (now : Int) :
    q.poll now = match q.pending with
      | [] => (.idle, q)
      | b :: _ =>
        if now < q.nextTime then (.notYet, q)
        else (.injected b, { q with extoff := q.extoff + 1, nextTime := now + q.delay }) := by
  have hhead : q.buffer[q.extoff]? = q.pending.head? := by
    rw [pending, List.head?_drop]
  unfold poll
  rw [hhead]
  cases q.pending <;> rfl

theorem poll_eq_idle_iff (q : SendQueue) (now : Int) : (q.poll now).1 = .idle ↔ q.pending = [] := by
  rw [poll_eq]
  cases q.pending with
  | nil => simp
  | cons b rest =>
    simp only [reduceCtorEq, iff_false]
    split <;> simp

/-- A poll that hands over a byte takes the first byte waiting, and moves the offset past it
within the buffer. -/
theorem poll_injected {q q' : SendQueue} {now : Int} {b : UInt8} (h : q.poll now = (.injected b, q')) :
    q.pending = b :: q'.pending ∧ q'.extoff ≤ q'.buffer.length := by
  rw [poll_eq] at h
  cases hp : q.pending with
  | nil => rw [hp] at h; cases h
  | cons b' rest =>
    rw [hp] at h
    simp only at h
    split at h
    · cases h
    · simp only [Prod.mk.injEq, SendPoll.injected.injEq] at h
      obtain ⟨rfl, rfl⟩ := h
      have hlt : q.extoff < q.buffer.length := by
        refine Nat.lt_of_not_le fun hle => ?_
        have : q.pending = [] := List.drop_eq_nil_iff.mpr hle
        rw [hp] at this
        cases this
      refine ⟨?_, hlt⟩
      show b' :: rest = b' :: q.buffer.drop (q.extoff + 1)
      rw [← List.tail_drop, ← pending, hp]
      rfl

/-- A poll that hands over nothing leaves the queue as it was. -/
theorem poll_not_injected {q q' : SendQueue} {now : Int} {p : SendPoll}
    (h : q.poll now = (p, q')) (hp : ∀ b, p ≠ .injected b) : q' = q := by
  rw [poll_eq] at h
  cases hpend : q.pending with
  | nil =>
    rw [hpend] at h
    exact (Prod.mk.inj h).2.symm
  | cons b rest =>
    rw [hpend] at h
    dsimp only at h
    split at h
    · exact (Prod.mk.inj h).2.symm
    · exact absurd (Prod.mk.inj h).1.symm (hp b)

/-! ## Runs of operations -/

/-- An operation on a line's send queue. -/
inductive Op where
  | input (data : List UInt8) (after delay : Nat) (now : Int)
  | poll (now : Int)
  | clear

/-- What a run has put through a queue: the bytes handed over, in order, and the stream they
are taken from. -/
structure Flow where
  handed : List UInt8
  stream : List UInt8

/-- One operation and what it does to the flow: an input appends its data to the stream, a poll
that hands over a byte adds it to the bytes handed over, and a clear removes from the end of the
stream as many bytes as were waiting. -/
def step (q : SendQueue) (f : Flow) : Op → SendQueue × Flow
  | .input data after delay now => (q.input data after delay now, { f with stream := f.stream ++ data })
  | .poll now =>
    match q.poll now with
    | (.injected b, q') => (q', { f with handed := f.handed ++ [b] })
    | (_, q') => (q', f)
  | .clear => (q.clear, { f with stream := f.stream.take (f.stream.length - q.pending.length) })

/-- A run of operations, from a queue and a flow. -/
def run (q : SendQueue) (f : Flow) : List Op → SendQueue × Flow
  | [] => (q, f)
  | op :: ops => (q.step f op).1.run (q.step f op).2 ops

/-- The flow is accounted for: the bytes handed over and those waiting make up the stream, and
the offset is within the buffer. -/
structure Accounts (q : SendQueue) (f : Flow) : Prop where
  stream_eq : f.handed ++ q.pending = f.stream
  extoff_le : q.extoff ≤ q.buffer.length

theorem Accounts.step {q : SendQueue} {f : Flow} (h : Accounts q f) (op : Op) :
    Accounts (q.step f op).1 (q.step f op).2 := by
  cases op with
  | input data after delay now =>
    refine ⟨?_, by simp [SendQueue.step]⟩
    simp only [SendQueue.step, pending_input, ← h.stream_eq, List.append_assoc]
  | poll now =>
    rcases hpoll : q.poll now with ⟨p, q'⟩
    cases p with
    | injected b =>
      obtain ⟨hpend, hle⟩ := poll_injected hpoll
      simp only [SendQueue.step, hpoll]
      refine ⟨?_, hle⟩
      rw [← h.stream_eq, hpend, List.append_assoc, List.singleton_append]
    | idle | notYet =>
      simp only [SendQueue.step, hpoll]
      rw [poll_not_injected hpoll nofun]
      exact h
  | clear =>
    refine ⟨?_, by simp [SendQueue.step]⟩
    -- the bytes waiting are the end of the stream, so removing as many leaves those handed over
    have hlen : f.stream.length - q.pending.length = f.handed.length := by
      rw [← h.stream_eq, List.length_append]
      omega
    show f.handed ++ [] = f.stream.take (f.stream.length - q.pending.length)
    rw [hlen, ← h.stream_eq, List.take_left, List.append_nil]

theorem Accounts.run {q : SendQueue} {f : Flow} (h : Accounts q f) (ops : List Op) :
    Accounts (q.run f ops).1 (q.run f ops).2 := by
  induction ops generalizing q f with
  | nil => exact h
  | cons op ops ih => exact ih (h.step op)

/-- A send queue hands over its stream in order: from any queue whose offset is within its
buffer, after any run of inputs, polls and clears, the bytes handed over are, in order, a prefix
of the stream made of the bytes waiting at the start and the data of every input, with at each
clear the bytes waiting then removed; the bytes waiting are the rest of that stream; a poll is
idle exactly when none wait; and the offset is still within the buffer. -/
theorem send_stream_in_order (q : SendQueue) (hq : q.extoff ≤ q.buffer.length) (ops : List Op) :
    let r := q.run ⟨[], q.pending⟩ ops
    r.2.handed <+: r.2.stream ∧ r.1.pending = r.2.stream.drop r.2.handed.length ∧
      (∀ now, (r.1.poll now).1 = .idle ↔ r.1.pending = []) ∧ r.1.extoff ≤ r.1.buffer.length := by
  intro r
  have h : Accounts r.1 r.2 := Accounts.run ⟨List.nil_append _, hq⟩ ops
  refine ⟨⟨r.1.pending, h.stream_eq⟩, ?_, fun now => poll_eq_idle_iff r.1 now, h.extoff_le⟩
  rw [← h.stream_eq, List.drop_left]

/-- The console's queue fed `abc`, polled once when the first byte is due, then fed `d`. -/
theorem send_stream_in_order_of_compaction :
    let q := SendQueue.new "CONSOLE" 1
    let ops := [Op.input [97, 98, 99] 0 0 0, .poll 1, .input [100] 0 0 1]
    let r := q.run ⟨[], q.pending⟩ ops
    q.extoff ≤ q.buffer.length ∧ r.2.handed = [97] ∧ r.1.pending = [98, 99, 100] ∧
      (r.2.handed <+: r.2.stream ∧ r.1.pending = r.2.stream.drop r.2.handed.length ∧
        (∀ now, (r.1.poll now).1 = .idle ↔ r.1.pending = []) ∧ r.1.extoff ≤ r.1.buffer.length) :=
  ⟨Nat.le_refl 0, rfl, rfl, send_stream_in_order _ (Nat.le_refl 0) _⟩

end SimControl.SendQueue
