/-!
# Interval timer

Counts the cycles it is given and fires once the count reaches the timeout, then starts over. A
timeout of zero disables it.
-/

set_option autoImplicit false

namespace PagedMachine

structure Timer where
  /-- Cycles since it last fired. -/
  count : UInt32 := 0
  timeout : UInt32 := 0
deriving DecidableEq, Inhabited

namespace Timer

def enabled (t : Timer) : Bool := t.timeout ≠ 0

/-- Advances by `ticks` and says whether the timer fired. -/
def tick (t : Timer) (ticks : UInt32) : Bool × Timer :=
  if t.timeout = 0 then (false, t)
  else if t.count + ticks ≥ t.timeout then (true, { t with count := 0 })
  else (false, { t with count := t.count + ticks })

/-- Changes the timeout and keeps the count. -/
def setTimeout (t : Timer) (timeout : UInt32) : Timer := { t with timeout }

theorem tick_disabled {t : Timer} (h : t.timeout = 0) (ticks : UInt32) :
    t.tick ticks = (false, t) := by
  simp [tick, h]

@[simp] theorem tick_timeout (t : Timer) (ticks : UInt32) :
    (t.tick ticks).2.timeout = t.timeout := by
  simp only [tick]
  split
  · rfl
  · split <;> rfl

end Timer

end PagedMachine
