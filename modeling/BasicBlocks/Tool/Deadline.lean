/-!
# Deadlines

Waiting for a program that may never end: it is polled, and between polls there is a pause of at
most one interval that never reaches past the deadline. A poll comes before each look at the clock,
so an end that the last poll sees counts. A program that is still running when the clock has come
to the deadline is killed. Times are in nanoseconds.
-/

namespace BasicBlocks.Deadline

def millisecond : Nat := 1000000

def second : Nat := 1000 * millisecond

/-- The longest pause. -/
def interval : Nat := 50 * millisecond

theorem interval_pos : 0 < interval := by decide

/-- What a wait does, one after the other. -/
inductive Action
  | poll
  | look
  | pause (length : Nat)
  | kill
  /-- Waits for the end of a program that has been killed. -/
  | reap
  deriving DecidableEq, Repr

inductive Verdict (ε α : Type)
  | finished (a : α)
  /-- A poll failed, which says nothing of the program. -/
  | unanswered (e : ε)
  | expired
  deriving DecidableEq, Repr

structure Wait (ε α : Type) where
  actions : List Action
  verdict : Verdict ε α
  deriving DecidableEq, Repr

def Wait.polls {ε α : Type} (w : Wait ε α) : Nat := w.actions.count .poll

/-- What a wait meets: the answer to each poll, which is nothing as long as the program is running,
and what the clock reads, once at the start and then after each poll. -/
structure Course (ε α : Type) where
  poll : Nat → Except ε (Option α)
  clock : Nat → Nat

variable {ε α : Type}

namespace Course

/-- The time from the start to the look at the clock after poll number `n`. -/
def elapsed (c : Course ε α) (n : Nat) : Nat := c.clock (n + 1) - c.clock 0

/-- Round number `n` is not the last one. -/
def GoesOn (c : Course ε α) (limit n : Nat) : Prop := c.poll n = .ok none ∧ c.elapsed n < limit

/-- The clock never goes back, and it goes on by every pause, of which it may be late. -/
structure KeepsTime (c : Course ε α) (limit : Nat) : Prop where
  onward : ∀ n, c.clock n ≤ c.clock (n + 1)
  rested : ∀ n, c.GoesOn limit n →
    c.clock (n + 1) + min interval (limit - c.elapsed n) ≤ c.clock (n + 2)

namespace KeepsTime

variable {c : Course ε α} {limit n : Nat}

theorem start_le (keeps : c.KeepsTime limit) (n : Nat) : c.clock 0 ≤ c.clock n := by
  induction n with
  | zero => exact Nat.le_refl _
  | succ n ih => exact Nat.le_trans ih (keeps.onward n)

theorem add_pause_le_elapsed (keeps : c.KeepsTime limit) (goes : c.GoesOn limit n) :
    c.elapsed n + min interval (limit - c.elapsed n) ≤ c.elapsed (n + 1) := by
  have started := keeps.start_le (n + 1)
  have rested := keeps.rested n goes
  have before : c.elapsed n = c.clock (n + 1) - c.clock 0 := rfl
  have after : c.elapsed (n + 1) = c.clock (n + 2) - c.clock 0 := rfl
  omega

theorem remaining_lt (keeps : c.KeepsTime limit) (goes : c.GoesOn limit n) :
    limit - c.elapsed (n + 1) < limit - c.elapsed n := by
  have further := keeps.add_pause_le_elapsed goes
  have early := goes.2
  have positive := interval_pos
  omega

end KeepsTime

/-- The wait from round number `n` on. -/
def waitFrom (c : Course ε α) (limit : Nat) (keeps : c.KeepsTime limit) (n : Nat) : Wait ε α :=
  match polled : c.poll n with
  | .error e => ⟨[.poll], .unanswered e⟩
  | .ok (some a) => ⟨[.poll], .finished a⟩
  | .ok none =>
    if early : c.elapsed n < limit then
      let later := c.waitFrom limit keeps (n + 1)
      { later with
        actions := [.poll, .look, .pause (min interval (limit - c.elapsed n))] ++ later.actions }
    else ⟨[.poll, .look, .kill, .reap], .expired⟩
termination_by limit - c.elapsed n
decreasing_by exact keeps.remaining_lt ⟨polled, early⟩

end Course

/-! ## Waiting by a clock that is never late -/

/-- The time of a poll by such a clock. -/
def pollTime (limit n : Nat) : Nat := min (interval * n) limit

/-- The course of a program that ends at a time, if ever. -/
def Course.punctual (limit : Nat) (event : Option (α × Nat)) : Course ε α where
  poll n := .ok (event.bind fun e => if e.2 ≤ pollTime limit n then some e.1 else none)
  clock
    | 0 => 0
    | n + 1 => pollTime limit n

theorem Course.keepsTime_punctual (limit : Nat) (event : Option (α × Nat)) :
    (Course.punctual limit event : Course ε α).KeepsTime limit where
  onward n := by
    cases n with
    | zero => exact Nat.zero_le _
    | succ n =>
      have further := Nat.mul_le_mul_left interval (Nat.le_add_right n 1)
      show min (interval * n) limit ≤ min (interval * (n + 1)) limit
      omega
  rested n goes := by
    have early : pollTime limit n - 0 < limit := goes.2
    show pollTime limit n + min interval (limit - (pollTime limit n - 0)) ≤ pollTime limit (n + 1)
    unfold pollTime at *
    rw [Nat.mul_succ]
    omega

def wait (limit : Nat) (event : Option (α × Nat)) : Wait ε α :=
  (Course.punctual limit event).waitFrom limit (Course.keepsTime_punctual limit event) 0

end BasicBlocks.Deadline
