import Mathlib.Algebra.Order.Floor.Div
import BasicBlocks.Tool.Capture

/-!
# Waits with a deadline

A wait goes through rounds in which the program is running and the deadline is ahead, and is settled
in the first round that is not like that. Whatever the clock does, this round alone decides what
comes of the wait. A clock that keeps time makes sure that there is one: each round before it takes
an interval, or all that is left of the limit, so there are no more of them than intervals begin
within the limit.
-/

namespace BasicBlocks

namespace Deadline

variable {ε α : Type}

def Action.pause? : Action → Option Nat
  | .pause length => some length
  | _ => none

/-- The lengths of the pauses, in order. -/
def Wait.pauses (w : Wait ε α) : List Nat := w.actions.filterMap (·.pause?)

def Wait.kills (w : Wait ε α) : Nat := w.actions.count .kill

/-- How often the program is killed before such a verdict. -/
def Verdict.kills : Verdict ε α → Nat
  | .expired => 1
  | _ => 0

namespace Course

/-- What the last round does, and the verdict that it comes to. -/
inductive Settles (c : Course ε α) (limit n : Nat) : List Action → Verdict ε α → Prop
  | finished {a : α} (seen : c.poll n = .ok (some a)) : Settles c limit n [.poll] (.finished a)
  | unanswered {e : ε} (failed : c.poll n = .error e) : Settles c limit n [.poll] (.unanswered e)
  | expired (running : c.poll n = .ok none) (late : limit ≤ c.elapsed n) :
      Settles c limit n [.poll, .look, .kill, .reap] .expired

/-- The rounds from number `n` on, by any clock. A wait that went on forever would have no
derivation. -/
inductive Rounds (c : Course ε α) (limit : Nat) : Nat → Wait ε α → Prop
  | settled {n : Nat} {last : List Action} {verdict : Verdict ε α}
      (settles : c.Settles limit n last verdict) : Rounds c limit n ⟨last, verdict⟩
  | again {n left : Nat} {later : Wait ε α} (running : c.poll n = .ok none)
      (remainder : c.elapsed n + left = limit) (ahead : 0 < left)
      (rest : Rounds c limit (n + 1) later) :
      Rounds c limit n
        ⟨[.poll, .look, .pause (min interval left)] ++ later.actions, later.verdict⟩

variable {c : Course ε α} {limit n m : Nat} {w : Wait ε α} {a : α}

namespace Settles

variable {last : List Action} {verdict : Verdict ε α}

theorem not_goesOn (settles : c.Settles limit n last verdict) : ¬ c.GoesOn limit n := by
  rintro ⟨running, early⟩
  cases settles with
  | finished seen => rw [running] at seen; cases seen
  | unanswered failed => rw [running] at failed; cases failed
  | expired _ late => omega

theorem unique (settles : c.Settles limit n last verdict) {last' : List Action}
    {verdict' : Verdict ε α} (settles' : c.Settles limit n last' verdict') :
    last' = last ∧ verdict' = verdict := by
  cases settles with
  | finished seen => cases settles' <;> simp_all
  | unanswered failed => cases settles' <;> simp_all
  | expired running late => cases settles' <;> simp_all

theorem finished_iff (settles : c.Settles limit n last verdict) :
    verdict = .finished a ↔ c.poll n = .ok (some a) := by
  cases settles with
  | finished seen => simp [seen]
  | unanswered failed => simp [failed]
  | expired running _ => simp [running]

theorem expired_iff (settles : c.Settles limit n last verdict) :
    verdict = .expired ↔ c.poll n = .ok none ∧ limit ≤ c.elapsed n := by
  cases settles with
  | finished seen => simp [seen]
  | unanswered failed => simp [failed]
  | expired running late => simp [running, late]

theorem count_poll (settles : c.Settles limit n last verdict) : last.count .poll = 1 := by
  cases settles <;> rfl

theorem count_kill (settles : c.Settles limit n last verdict) :
    last.count .kill = verdict.kills := by
  cases settles <;> rfl

theorem pauses_eq_nil (settles : c.Settles limit n last verdict) :
    last.filterMap (·.pause?) = [] := by
  cases settles <;> rfl

end Settles

theorem exists_settles (last : ¬ c.GoesOn limit n) :
    ∃ actions verdict, c.Settles limit n actions verdict := by
  rcases polled : c.poll n with e | _ | a
  · exact ⟨_, _, .unanswered polled⟩
  · exact ⟨_, _, .expired polled (Nat.le_of_not_lt fun early => last ⟨polled, early⟩)⟩
  · exact ⟨_, _, .finished polled⟩

/-- What is done in round number `n` if it goes on. -/
def round (c : Course ε α) (limit n : Nat) : List Action :=
  [.poll, .look, .pause (min interval (limit - c.elapsed n))]

namespace Rounds

theorem of_goesOn (rest : c.Rounds limit (n + 1) w) (goes : c.GoesOn limit n) :
    c.Rounds limit n ⟨c.round limit n ++ w.actions, w.verdict⟩ :=
  .again goes.1 (Nat.add_sub_of_le (Nat.le_of_lt goes.2)) (Nat.sub_pos_of_lt goes.2) rest

theorem goesOn_of_again {left : Nat} (running : c.poll n = .ok none)
    (remainder : c.elapsed n + left = limit) (ahead : 0 < left) : c.GoesOn limit n :=
  ⟨running, by omega⟩

/-- Polls and clock decide every round. -/
theorem unique (rounds : c.Rounds limit n w) {w' : Wait ε α} (rounds' : c.Rounds limit n w') :
    w' = w := by
  induction rounds generalizing w' with
  | settled settles =>
    cases rounds' with
    | settled settles' =>
      obtain ⟨rfl, rfl⟩ := settles.unique settles'
      rfl
    | again running remainder ahead _ =>
      exact absurd (goesOn_of_again running remainder ahead) settles.not_goesOn
  | again running remainder ahead _ ih =>
    cases rounds' with
    | settled settles' =>
      exact absurd (goesOn_of_again running remainder ahead) settles'.not_goesOn
    | again _ remainder' _ rest' =>
      obtain rfl := Nat.add_left_cancel (remainder.trans remainder'.symm)
      rw [ih rest']

/-- Only the last one of the rounds does not go on. -/
theorem exists_last (rounds : c.Rounds limit n w) :
    ∃ m last, (∀ k < m, c.GoesOn limit (n + k)) ∧ c.Settles limit (n + m) last w.verdict ∧
      w.actions = (List.range' n m).flatMap (c.round limit) ++ last := by
  induction rounds with
  | settled settles => exact ⟨0, _, by simp, settles, rfl⟩
  | @again n left later running remainder ahead _ ih =>
    obtain ⟨m, last, goes, settles, actions⟩ := ih
    have difference : left = limit - c.elapsed n := by omega
    refine ⟨m + 1, last, fun k hk => ?_, ?_, ?_⟩
    · cases k with
      | zero => exact goesOn_of_again running remainder ahead
      | succ k =>
        rw [Nat.add_comm k 1, ← Nat.add_assoc]
        exact goes k (Nat.lt_of_succ_lt_succ hk)
    · rwa [Nat.add_comm m 1, ← Nat.add_assoc]
    · rw [List.range'_succ, List.flatMap_cons, List.append_assoc, ← actions, difference, round]

end Rounds

/-- By any clock, there is an end to the rounds unless each of them goes on. -/
theorem exists_rounds_iff : (∃ w, c.Rounds limit n w) ↔ ∃ k, ¬ c.GoesOn limit (n + k) := by
  constructor
  · rintro ⟨w, rounds⟩
    obtain ⟨m, _, _, settles, _⟩ := rounds.exists_last
    exact ⟨m, settles.not_goesOn⟩
  · rintro ⟨k, last⟩
    induction k generalizing n with
    | zero =>
      obtain ⟨actions, verdict, settles⟩ := exists_settles last
      exact ⟨_, .settled settles⟩
    | succ k ih =>
      by_cases goes : c.GoesOn limit n
      · obtain ⟨later, rest⟩ := ih (n := n + 1) (by rwa [Nat.add_assoc, Nat.add_comm 1 k])
        exact ⟨_, rest.of_goesOn goes⟩
      · obtain ⟨actions, verdict, settles⟩ := exists_settles goes
        exact ⟨_, .settled settles⟩

/-- The wait is what the rounds make, if the clock keeps time. -/
theorem rounds_waitFrom (keeps : c.KeepsTime limit) (n : Nat) :
    c.Rounds limit n (c.waitFrom limit keeps n) := by
  fun_induction waitFrom c limit keeps n with
  | case1 n e failed => exact .settled (.unanswered failed)
  | case2 n a seen => exact .settled (.finished seen)
  | case3 n running early later ih => exact ih.of_goesOn ⟨running, early⟩
  | case4 n running late => exact .settled (.expired running (Nat.le_of_not_lt late))

/-- A wait that is settled in round number `m`, after all the rounds before. -/
structure SettledIn (c : Course ε α) (limit : Nat) (w : Wait ε α) (m : Nat) : Prop where
  goesOn : ∀ k < m, c.GoesOn limit k
  settles : ∃ last, c.Settles limit m last w.verdict ∧
    w.actions = (List.range m).flatMap (c.round limit) ++ last

theorem Rounds.exists_settledIn (rounds : c.Rounds limit 0 w) : ∃ m, c.SettledIn limit w m := by
  obtain ⟨m, last, goes, settles, actions⟩ := rounds.exists_last
  simp only [Nat.zero_add, ← List.range_eq_range'] at goes settles actions
  exact ⟨m, goes, last, settles, actions⟩

namespace SettledIn

theorem polls_eq (settled : c.SettledIn limit w m) : w.polls = m + 1 := by
  obtain ⟨last, settles, actions⟩ := settled.settles
  have once : List.count Action.poll ∘ c.round limit = fun _ => 1 := rfl
  rw [Wait.polls, actions, List.count_append, List.count_flatMap, settles.count_poll, once]
  simp

theorem kills_eq (settled : c.SettledIn limit w m) : w.kills = w.verdict.kills := by
  obtain ⟨last, settles, actions⟩ := settled.settles
  have never : List.count Action.kill ∘ c.round limit = fun _ => 0 := rfl
  rw [Wait.kills, actions, List.count_append, List.count_flatMap, settles.count_kill, never]
  simp

theorem pauses_eq (settled : c.SettledIn limit w m) :
    w.pauses = (List.range m).map fun k => min interval (limit - c.elapsed k) := by
  obtain ⟨last, settles, actions⟩ := settled.settles
  rw [Wait.pauses, actions, List.filterMap_append, List.filterMap_flatMap, settles.pauses_eq_nil,
    List.append_nil, List.map_eq_flatMap]
  rfl

/-- A round that does not go on can only be the last one. -/
theorem exists_iff (settled : c.SettledIn limit w m) {P : Nat → Prop}
    (stops : ∀ k, P k → ¬ c.GoesOn limit k) : (∃ k < w.polls, P k) ↔ P m := by
  rw [settled.polls_eq]
  constructor
  · rintro ⟨k, within, holds⟩
    have reached : ¬ k < m := fun before => stops k holds (settled.goesOn k before)
    obtain rfl : k = m := by omega
    exact holds
  · intro holds
    exact ⟨m, Nat.lt_succ_self m, holds⟩

theorem finished_iff (settled : c.SettledIn limit w m) :
    w.verdict = .finished a ↔ ∃ k < w.polls, c.poll k = .ok (some a) := by
  obtain ⟨last, settles, _⟩ := settled.settles
  rw [settled.exists_iff, settles.finished_iff]
  rintro k seen ⟨running, _⟩
  rw [running] at seen
  cases seen

theorem expired_iff (settled : c.SettledIn limit w m) :
    w.verdict = .expired ↔ ∃ k < w.polls, c.poll k = .ok none ∧ limit ≤ c.elapsed k := by
  obtain ⟨last, settles, _⟩ := settled.settles
  rw [settled.exists_iff, settles.expired_iff]
  rintro k ⟨_, late⟩ ⟨_, early⟩
  omega

end SettledIn

namespace KeepsTime

/-- Every round that goes on takes an interval, or all the time that is left. -/
theorem le_elapsed (keeps : c.KeepsTime limit) (goes : ∀ k < n, c.GoesOn limit k) :
    min limit (interval * n) ≤ c.elapsed n := by
  induction n with
  | zero => simp
  | succ n ih =>
    have before := ih fun k hk => goes k (Nat.lt_succ_of_lt hk)
    have step := keeps.add_pause_le_elapsed (goes n (Nat.lt_succ_self n))
    rw [Nat.mul_succ]
    omega

/-- After as many intervals as begin within the limit, the deadline is no longer ahead. -/
theorem le_ceilDiv (keeps : c.KeepsTime limit) (goes : ∀ k < n, c.GoesOn limit k) :
    n ≤ limit ⌈/⌉ interval := by
  by_contra many
  -- With one round more, round number `limit ⌈/⌉ interval` would go on behind the deadline.
  have more := Nat.lt_of_not_le many
  have enough : limit ≤ interval * (limit ⌈/⌉ interval) := le_smul_ceilDiv interval_pos
  have reached := keeps.le_elapsed fun k within => goes k (Nat.lt_trans within more)
  have early := (goes _ more).2
  omega

end KeepsTime
end Course
end Deadline

namespace Capture

open Deadline

variable {α : Type} {tool : String} {limit : Nat}

theorem result_conclude_eq_ok_iff {verdict : Verdict IoFault α} {a : α} :
    (conclude tool limit verdict).result = .ok a ↔ verdict = .finished a := by
  cases verdict with
  | finished b => exact ⟨by rintro ⟨⟩; rfl, by rintro ⟨⟩; rfl⟩
  | unanswered cause => exact ⟨by rintro ⟨⟩, by rintro ⟨⟩⟩
  | expired => exact ⟨by rintro ⟨⟩, by rintro ⟨⟩⟩

theorem result_conclude_eq_timedOut_iff {verdict : Verdict IoFault α} :
    (conclude tool limit verdict).result = .error (.toolTimedOut tool (wholeSeconds limit)) ↔
      verdict = .expired := by
  cases verdict with
  | finished b => exact ⟨by rintro ⟨⟩, by rintro ⟨⟩⟩
  | unanswered cause => exact ⟨by rintro ⟨⟩, by rintro ⟨⟩⟩
  | expired => exact ⟨fun _ => rfl, fun _ => rfl⟩

/-- By a clock that keeps time a wait comes to an end, with at most one poll for every interval that
begins within the limit and one more. What is left of the limit, which bounds each pause, is an exact
difference. The program's end is what comes of the wait if and only if a poll sees it, and then
nothing is killed. The wait times out, with one kill, if and only if a poll finds the program running
and the clock is at the deadline after it, or past it. -/
theorem wait_is_settled_by_deadline (tool : String) (limit : Nat) (c : Course IoFault α)
    (keeps : c.KeepsTime limit) :
    ∃ w : Wait IoFault α, c.waitFrom limit keeps 0 = w ∧
      (∀ others, c.Rounds limit 0 others ↔ others = w) ∧
      w.polls ≤ limit ⌈/⌉ interval + 1 ∧
      w.pauses.length + 1 = w.polls ∧
      (∀ n, n + 1 < w.polls → ∃ left, c.elapsed n + left = limit ∧
        w.pauses[n]? = some (min interval left)) ∧
      (∀ a, (conclude tool limit w.verdict).result = .ok a ↔
        ∃ n < w.polls, c.poll n = .ok (some a)) ∧
      (∀ a, (conclude tool limit w.verdict).result = .ok a → w.kills = 0) ∧
      ((conclude tool limit w.verdict).result = .error (.toolTimedOut tool (wholeSeconds limit)) ↔
        ∃ n < w.polls, c.poll n = .ok none ∧ limit ≤ c.elapsed n) ∧
      ((conclude tool limit w.verdict).result = .error (.toolTimedOut tool (wholeSeconds limit)) →
        w.kills = 1) := by
  have rounds := c.rounds_waitFrom keeps 0
  obtain ⟨m, settled⟩ := rounds.exists_settledIn
  simp only [result_conclude_eq_ok_iff, result_conclude_eq_timedOut_iff]
  refine ⟨_, rfl, fun others => ⟨rounds.unique, ?_⟩, ?_, ?_, fun n within => ?_,
    fun a => settled.finished_iff, fun a finished => ?_, settled.expired_iff, fun expired => ?_⟩
  · rintro rfl
    exact rounds
  · rw [settled.polls_eq]
    exact Nat.succ_le_succ (keeps.le_ceilDiv settled.goesOn)
  · simp [settled.pauses_eq, settled.polls_eq]
  · have before : n < m := by rw [settled.polls_eq] at within; omega
    have early := (settled.goesOn n before).2
    exact ⟨limit - c.elapsed n, by omega, by simp [settled.pauses_eq, before]⟩
  · rw [settled.kills_eq, finished]
    rfl
  · rw [settled.kills_eq, expired]
    rfl

/-- A course in which the second pause is over only behind the deadline, and so is the program. -/
def overslept : Course IoFault ExitCode where
  poll n := .ok (if n < 2 then none else some (some 0))
  clock
    | 0 => 0
    | 1 => 1 * millisecond
    | 2 => 80 * millisecond
    | _ => 101 * millisecond

theorem keepsTime_overslept : overslept.KeepsTime (100 * millisecond) where
  onward := by
    rintro (_ | _ | _ | n)
    · decide
    · decide
    · decide
    · exact Nat.le_refl _
  rested := by
    rintro (_ | _ | n) goes
    · decide
    · decide
    · cases goes.1

/-- The poll that comes before the look at the clock still counts. -/
theorem overslept_end_is_no_timeout :
    overslept.KeepsTime (100 * millisecond) ∧ 100 * millisecond ≤ overslept.elapsed 2 ∧
      ∃ w, overslept.Rounds (100 * millisecond) 0 w ∧ w.polls = 3 ∧
        w.pauses = [50 * millisecond, 20 * millisecond] ∧
        (conclude "ddisasm" (100 * millisecond) w.verdict).result = .ok (some 0) ∧ w.kills = 0 := by
  obtain ⟨w, waited, rounds, _, _, _, returned, spared, _⟩ :=
    wait_is_settled_by_deadline "ddisasm" (100 * millisecond) overslept keepsTime_overslept
  have polls : w.polls = 3 := by rw [← waited]; decide +kernel
  have pauses : w.pauses = [50 * millisecond, 20 * millisecond] := by rw [← waited]; decide +kernel
  have seen := (returned (some 0)).mpr ⟨2, by rw [polls]; decide, rfl⟩
  exact ⟨keepsTime_overslept, by decide, w, (rounds w).mpr rfl, polls, pauses, seen, spared _ seen⟩

end Capture
end BasicBlocks
