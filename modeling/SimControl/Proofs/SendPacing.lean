import SimControl.Proofs.SendStream
/-!
# A send queue paces its bytes

The instant the next byte is due only moves forward: an input raises it to its own after time
when that is later, and a hand-over sets it to the hand-over's instant plus the delay, which is
no earlier, since the byte was due. A byte is handed over only once it is due, so no byte is
handed over, in any later run, before the instant a queue has set (`le_of_mem_handovers`).
Two laws of pacing follow: after a byte is handed over at `t`, no other is before `t` plus the
delay; after an input at `t₀`, no byte, those of the input included, is before `t₀` plus the
after time the input leaves (`send_pacing`).

Instants are unbounded integers here, so no sum of an instant and a delay overflows.
-/

namespace SimControl.SendQueue

/-! ## One operation at a time -/

/-- The queue after an operation. -/
def exec (q : SendQueue) : Op → SendQueue
  | .input data after delay now => q.input data after delay now
  | .poll now => (q.poll now).2
  | .clear => q.clear

/-- The queue after operations in order. -/
def execAll (q : SendQueue) (ops : List Op) : SendQueue := ops.foldl exec q

/-- The instant and the byte of each hand-over of a run, in order. -/
def handovers (q : SendQueue) : List Op → List (Int × UInt8)
  | [] => []
  | .input data after delay now :: ops => (q.input data after delay now).handovers ops
  | .poll now :: ops =>
    match q.poll now with
    | (.injected b, q') => (now, b) :: q'.handovers ops
    | (_, q') => q'.handovers ops
  | .clear :: ops => q.clear.handovers ops

@[simp] theorem execAll_nil (q : SendQueue) : q.execAll [] = q := rfl

@[simp] theorem execAll_cons (q : SendQueue) (op : Op) (ops : List Op) :
    q.execAll (op :: ops) = (q.exec op).execAll ops := rfl

/-- An input moves the due instant to its after time from now, unless a byte is due later. -/
theorem nextTime_input (q : SendQueue) (data : List UInt8) (after delay : Nat) (now : Int) :
    (q.input data after delay now).nextTime =
      max q.nextTime (now + (q.input data after delay now).after) := by
  unfold input
  by_cases h : q.extoff = 0 <;> simp [h]

/-- A poll that hands over a byte does so once it is due, and the next is due the delay later;
the delay stays. -/
theorem poll_injected_times {q q' : SendQueue} {now : Int} {b : UInt8}
    (h : q.poll now = (.injected b, q')) :
    q.nextTime ≤ now ∧ q'.nextTime = now + q.delay ∧ q'.delay = q.delay := by
  rw [poll_eq] at h
  cases hp : q.pending with
  | nil =>
    rw [hp] at h
    cases h
  | cons b' rest =>
    rw [hp] at h
    dsimp only at h
    split at h
    · cases h
    · rename_i hdue
      cases h
      exact ⟨Int.not_lt.mp hdue, rfl, rfl⟩

/-- A poll is not yet exactly when bytes wait and the first is not due. -/
theorem poll_notYet_iff (q : SendQueue) (now : Int) :
    (q.poll now).1 = .notYet ↔ q.pending ≠ [] ∧ now < q.nextTime := by
  rw [poll_eq]
  cases q.pending with
  | nil => simp
  | cons b rest =>
    dsimp only
    split <;> simp [*]

/-- No operation moves the due instant back. -/
theorem nextTime_le_exec (q : SendQueue) (op : Op) : q.nextTime ≤ (q.exec op).nextTime := by
  cases op with
  | input data after delay now =>
    show q.nextTime ≤ (q.input data after delay now).nextTime
    rw [nextTime_input]
    exact Int.le_max_left _ _
  | poll now =>
    show q.nextTime ≤ (q.poll now).2.nextTime
    rcases hpoll : q.poll now with ⟨p, q'⟩
    cases p with
    | injected b =>
      obtain ⟨hdue, hnext, -⟩ := poll_injected_times hpoll
      rw [hnext]
      omega
    | idle | notYet => exact Int.le_of_eq (by rw [poll_not_injected hpoll nofun])
  | clear => exact Int.le_refl _

theorem nextTime_le_execAll (q : SendQueue) (ops : List Op) :
    q.nextTime ≤ (q.execAll ops).nextTime := by
  induction ops generalizing q with
  | nil => exact Int.le_refl _
  | cons op ops ih => exact Int.le_trans (nextTime_le_exec q op) (ih (q.exec op))

/-- No byte is handed over in a run before the instant the queue it starts from has set. -/
theorem le_of_mem_handovers (q : SendQueue) (ops : List Op) :
    ∀ x ∈ q.handovers ops, q.nextTime ≤ x.1 := by
  induction ops generalizing q with
  | nil => nofun
  | cons op ops ih =>
    cases op with
    | input data after delay now =>
      intro x hx
      exact Int.le_trans (nextTime_le_exec q (.input data after delay now)) (ih _ x hx)
    | poll now =>
      rcases hpoll : q.poll now with ⟨p, q'⟩
      cases p with
      | injected b =>
        obtain ⟨hdue, hnext, -⟩ := poll_injected_times hpoll
        intro x hx
        simp only [handovers, hpoll, List.mem_cons] at hx
        rcases hx with rfl | hx
        · exact hdue
        · have hrest := ih q' x hx
          omega
      | idle | notYet =>
        have hq' : q' = q := poll_not_injected hpoll nofun
        intro x hx
        simp only [handovers, hpoll] at hx
        exact hq' ▸ ih q' x hx
    | clear =>
      intro x hx
      exact ih q.clear x hx

/-- The pacing of a send queue. For every queue and every run of inputs, polls and clears: the
instant the next byte is due never moves back; a poll is not yet exactly when bytes wait and
the first is not due; after a poll hands over a byte at `now`, every later byte is handed over
no earlier than `now` plus the delay then, the next one among them; and after an input at
`now`, every byte handed over, those of the input included, is so no earlier than `now` plus
the after time the input leaves. -/
theorem send_pacing (q : SendQueue) :
    (∀ ops, q.nextTime ≤ (q.execAll ops).nextTime) ∧
    (∀ now, (q.poll now).1 = .notYet ↔ q.pending ≠ [] ∧ now < q.nextTime) ∧
    (∀ now b ops, (q.poll now).1 = .injected b →
      ∀ x ∈ (q.poll now).2.handovers ops, now + q.delay ≤ x.1) ∧
    (∀ data after delay now ops, ∀ x ∈ (q.input data after delay now).handovers ops,
      now + (q.input data after delay now).after ≤ x.1) := by
  refine ⟨nextTime_le_execAll q, poll_notYet_iff q, ?_, ?_⟩
  · intro now b ops hinj x hx
    have hpoll : q.poll now = (.injected b, (q.poll now).2) := by rw [← hinj]
    obtain ⟨-, hnext, -⟩ := poll_injected_times hpoll
    rw [← hnext]
    exact le_of_mem_handovers _ ops x hx
  · intro data after delay now ops x hx
    have hle := le_of_mem_handovers _ ops x hx
    rw [nextTime_input] at hle
    omega

end SimControl.SendQueue
