/-
PagePreview.Proofs.Live.Clock — time can be split arbitrarily.

A page pulls the data once for each poll interval that ends on its clock.
The clock only ever goes forward, up to the greatest time that it can show,
and the number of intervals that have ended on it depends on the time alone.
So the pulls that are reported step by step add up to the intervals in the
whole time. And since several pulls in a row are one pull, it does not
matter either how they fall into the steps.

* `Bootstrap.one_le_pollInterval` — no page divides by zero.
* `LivePage.elapsed`, `LivePage.totalTicks` — the time that passes, and the
  pulls that are reported, over any actions.
* `LivePage.div_add_ticks` — a step counts the intervals that end in it.
* `LivePage.div_add_totalTicks` — so do all steps together.
* `LivePage.totalTicks_congr` — the pulls depend on the time alone.
* `LivePage.advance_advance` — two steps in a row are one step.
* `LivePage.time_can_be_split` — all of it together.
-/
import PagePreview.Proofs.Live.Run

namespace PagePreview

open Bootstrap (maxMilliseconds)

namespace Bootstrap

theorem one_le_pollInterval (b : Bootstrap) : 1 ≤ b.pollInterval := by
  unfold pollInterval
  split
  · split_ifs
    · exact le_min (le_max_right _ _) (by decide)
    · decide
  · decide

end Bootstrap

namespace LivePage

/-! ## The clock -/

namespace Action

/-- The time that passes in an action. -/
def elapsed : Action → Nat
  | advance ms => ms
  | _ => 0

theorem clock_eq {before : Nat} (h : before ≤ maxMilliseconds) (a : Action) :
    a.clock before = min (before + a.elapsed) maxMilliseconds := by
  cases a with
  | advance ms => rfl
  | _ => exact (min_eq_left h).symm

end Action

/-- The time that passes in actions. -/
def elapsed (actions : List Action) : Nat :=
  (actions.map Action.elapsed).sum

variable {p : LivePage}

/-- Time passes on the clock alone, and the interval is fixed. -/
theorem clock_act (p : LivePage) (a : Action) :
    (p.act a).clock = a.clock p.clock ∧ (p.act a).interval = p.interval := by
  rcases p.act_forms a with ⟨s, -, hact⟩ | ⟨-, hact⟩
  · rw [hact]
    exact ⟨rfl, rfl⟩
  · rw [hact]
    exact ⟨rfl, rfl⟩

theorem clock_act_eq (h : p.clock ≤ maxMilliseconds) (a : Action) :
    (p.act a).clock = min (p.clock + a.elapsed) maxMilliseconds := by
  rw [(p.clock_act a).1, Action.clock_eq h]

theorem clock_run (actions : List Action) (h : p.clock ≤ maxMilliseconds) :
    (p.run actions).clock = min (p.clock + elapsed actions) maxMilliseconds ∧
      (p.run actions).interval = p.interval := by
  induction actions generalizing p with
  | nil => exact ⟨(min_eq_left h).symm, rfl⟩
  | cons a actions ih =>
    have hact := clock_act_eq h a
    have hle : (p.act a).clock ≤ maxMilliseconds := hact ▸ min_le_right _ _
    obtain ⟨hclock, hinterval⟩ := ih hle
    have helapsed : elapsed (a :: actions) = a.elapsed + elapsed actions := rfl
    refine ⟨?_, hinterval.trans (p.clock_act a).2⟩
    change ((p.act a).run actions).clock = _
    rw [hclock, hact, helapsed]
    omega

/-! ## Pulls -/

/-- The pulls that an action reports. -/
def ticks (p : LivePage) : Action → Nat
  | .advance ms => (p.advance ms).result
  | _ => 0

/-- The pulls that are reported over actions. -/
def totalTicks (p : LivePage) : List Action → Nat
  | [] => 0
  | a :: actions => p.ticks a + (p.act a).totalTicks actions

/-- The intervals that have ended after an action are those that had ended
before it and those that it reports. -/
theorem div_add_ticks (h : p.clock ≤ maxMilliseconds) (a : Action) :
    p.clock / p.interval + p.ticks a = (p.act a).clock / p.interval := by
  rw [(p.clock_act a).1]
  cases a with
  | advance ms =>
    have hle : p.clock ≤ min (p.clock + ms) maxMilliseconds := le_min (Nat.le_add_right _ _) h
    exact Nat.add_sub_of_le (Nat.div_le_div_right hle)
  | _ => rfl

theorem div_add_totalTicks (actions : List Action) (h : p.clock ≤ maxMilliseconds) :
    p.clock / p.interval + p.totalTicks actions = (p.run actions).clock / p.interval := by
  induction actions generalizing p with
  | nil => rfl
  | cons a actions ih =>
    have hle : (p.act a).clock ≤ maxMilliseconds := clock_act_eq h a ▸ min_le_right _ _
    have hrest := ih hle
    rw [(p.clock_act a).2, ← div_add_ticks h a, Nat.add_assoc] at hrest
    exact hrest

/-- How many pulls are reported depends on nothing but the time that passes. -/
theorem totalTicks_congr (h : p.clock ≤ maxMilliseconds) {actions others : List Action}
    (helapsed : elapsed actions = elapsed others) : p.totalTicks actions = p.totalTicks others := by
  have hactions := div_add_totalTicks actions h
  have hothers := div_add_totalTicks others h
  rw [(clock_run actions h).1, helapsed, ← (clock_run others h).1] at hactions
  omega

/-- Two steps in time leave the page as one step of their length does. -/
theorem advance_advance (h : p.clock ≤ maxMilliseconds) (m n : Nat) :
    ((p.advance m).state.advance n).state = (p.advance (m + n)).state := by
  have helapsed : elapsed [.advance m, .advance n] = elapsed [.advance (m + n)] := rfl
  have hticks : (p.advance m).result + ((p.advance m).state.advance n).result =
      (p.advance (m + n)).result := totalTicks_congr h helapsed
  have hclock : min (min (p.clock + m) maxMilliseconds + n) maxMilliseconds =
      min (p.clock + (m + n)) maxMilliseconds := by
    omega
  rw [advance_state p (m + n), ← hticks, advance_state _ n, advance_state p m]
  by_cases hm : (p.advance m).result = 0
  · simp [hm, hclock]
  · simp [hm, hclock, View.refresh_refresh]

/-- Time can be split arbitrarily, whatever interval is configured and
whatever else happens to the page meanwhile. The interval is at least one,
and the intervals that had ended before a step never outnumber those that
have ended after it, so the difference of the two is what the step reports.
The pulls that are reported add up to the intervals in the whole time, as far
as the clock can show it, and two steps in a row are one step. -/
theorem time_can_be_split (b : Bootstrap) (v : View) (actions : List Action) :
    let p := (start b v).run actions
    (p.interval = b.pollInterval ∧ 1 ≤ p.interval) ∧
      (∀ ms, (p.advance ms).state.clock = min (p.clock + ms) maxMilliseconds ∧
        p.clock / p.interval + (p.advance ms).result = (p.advance ms).state.clock / p.interval) ∧
      (start b v).totalTicks actions =
        min (elapsed actions) maxMilliseconds / b.pollInterval ∧
      ∀ m n, ((p.advance m).state.advance n).state = (p.advance (m + n)).state := by
  intro p
  have hstart : (start b v).clock ≤ maxMilliseconds := Nat.zero_le _
  obtain ⟨hclock, hinterval⟩ := clock_run actions hstart
  have hle : p.clock ≤ maxMilliseconds := hclock ▸ min_le_right _ _
  have htotal := div_add_totalTicks actions hstart
  refine ⟨⟨hinterval, hinterval ▸ b.one_le_pollInterval⟩, fun ms => ?_, ?_,
    fun m n => advance_advance hle m n⟩
  · exact ⟨clock_act_eq hle (.advance ms), div_add_ticks hle (.advance ms)⟩
  · rw [hclock] at htotal
    simpa [start] using htotal

end LivePage

end PagePreview
