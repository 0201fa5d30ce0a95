import Mathlib.Algebra.Order.Floor.Div
import Mathlib.Data.Int.CardIntervalMod
import Mathlib.Dynamics.PeriodicPts.Defs
import PagedMachine.Proofs.Interrupts
import PagedMachine.Proofs.Unpaged

/-!
# When the timer fires

A timer that just fired is due again after `period` ticks, the least number that covers the timeout. It
fires then, and not before, and goes on with that period, if its count of cycles does not wrap on the
way; where it wraps the timer is late, or never fires (`Timer.never_fires`). An instruction that waits
passes a poll interval each time it runs, so it ends with the timer's interrupt within a period
(`Idling.delivered`).
-/

set_option autoImplicit false

namespace PagedMachine

namespace Timer

/-- The timer after `n` ticks. -/
def after (t : Timer) (ticks : UInt32) (n : Nat) : Timer := (fun t => (t.tick ticks).2)^[n] t

/-- Whether the timer fires at the tick that follows the first `n`. -/
def fires (t : Timer) (ticks : UInt32) (n : Nat) : Bool := ((t.after ticks n).tick ticks).1

/-- How often the timer fires in the first `n` ticks. -/
def firings (t : Timer) (ticks : UInt32) (n : Nat) : Nat := n.count fun i => t.fires ticks i = true

/-- How many ticks cover a timeout. -/
def period (timeout ticks : UInt32) : Nat := timeout.toNat ⌈/⌉ ticks.toNat

section
variable {t : Timer} {ticks : UInt32}

/-! ## One tick -/

theorem timeout_le_iff (h : t.count.toNat + ticks.toNat < UInt32.size) :
    t.timeout ≤ t.count + ticks ↔ t.timeout.toNat ≤ t.count.toNat + ticks.toNat := by
  rw [UInt32.le_iff_toNat_le, UInt32.toNat_add, Nat.mod_eq_of_lt h]

theorem tick_of_lt (ht : t.timeout ≠ 0)
    (hlt : t.count.toNat + ticks.toNat < t.timeout.toNat) :
    t.tick ticks = (false, { t with count := t.count + ticks }) := by
  have hfits : t.count.toNat + ticks.toNat < UInt32.size := hlt.trans t.timeout.toNat_lt
  rw [tick, if_neg ht, if_neg ((timeout_le_iff hfits).not.2 (Nat.not_le.2 hlt))]

theorem tick_of_le (ht : t.timeout ≠ 0) (hfits : t.count.toNat + ticks.toNat < UInt32.size)
    (hle : t.timeout.toNat ≤ t.count.toNat + ticks.toNat) :
    t.tick ticks = (true, { t with count := 0 }) := by
  rw [tick, if_neg ht, if_pos ((timeout_le_iff hfits).2 hle)]

/-- A sum that wraps falls behind the timeout. -/
theorem tick_of_wrap (ht : t.timeout ≠ 0) (hwrap : UInt32.size ≤ t.count.toNat + ticks.toNat)
    (hlt : t.count.toNat + ticks.toNat < UInt32.size + t.timeout.toNat) :
    t.tick ticks = (false, { t with count := t.count + ticks }) := by
  have hbehind : ¬t.timeout ≤ t.count + ticks := by
    rw [UInt32.le_iff_toNat_le, UInt32.toNat_add]
    have := ticks.toNat_lt
    have := t.count.toNat_lt
    simp only [UInt32.size] at hwrap hlt
    omega
  rw [tick, if_neg ht, if_neg hbehind]

/-! ## From one expiry to the next -/

theorem after_succ (t : Timer) (ticks : UInt32) (n : Nat) :
    t.after ticks (n + 1) = ((t.after ticks n).tick ticks).2 :=
  Function.iterate_succ_apply' ..

/-- Below the timeout the timer counts. -/
theorem after_of_lt (hc : t.count = 0) (ht : t.timeout ≠ 0) {n : Nat}
    (hlt : n * ticks.toNat < t.timeout.toNat) :
    (t.after ticks n).count.toNat = n * ticks.toNat ∧ (t.after ticks n).timeout = t.timeout := by
  induction n with
  | zero => exact ⟨by rw [Nat.zero_mul, after, Function.iterate_zero_apply, hc]; rfl, rfl⟩
  | succ n ih =>
    rw [Nat.succ_mul] at hlt ⊢
    obtain ⟨hcount, htimeout⟩ := ih (by omega)
    have htick : (t.after ticks n).tick ticks = _ :=
      tick_of_lt (by rwa [htimeout]) (by rwa [hcount, htimeout])
    have hfits := t.timeout.toNat_lt
    rw [after_succ, htick]
    refine ⟨?_, htimeout⟩
    rw [UInt32.toNat_add, hcount, Nat.mod_eq_of_lt (hlt.trans hfits)]

/-- The period covers the timeout, and less does not. -/
theorem timeout_le_period (hd : ticks ≠ 0) (timeout : UInt32) :
    timeout.toNat ≤ period timeout ticks * ticks.toNat ∧
      ∀ n < period timeout ticks, n * ticks.toNat < timeout.toNat := by
  have hpos : 0 < ticks.toNat := UInt32.pos_iff_ne_zero.2 hd
  refine ⟨?_, fun n hn => ?_⟩
  · rw [Nat.mul_comm]
    exact le_smul_ceilDiv hpos
  · rw [Nat.mul_comm]
    exact Nat.not_le.1 fun hle => Nat.not_le.2 hn ((ceilDiv_le_iff_le_mul hpos).2 hle)

theorem period_pos {timeout : UInt32} (ht : timeout ≠ 0) (hd : ticks ≠ 0) :
    0 < period timeout ticks := by
  have hcovers := (timeout_le_period hd timeout).1
  have hpos : 0 < timeout.toNat := UInt32.pos_iff_ne_zero.2 ht
  exact Nat.pos_of_ne_zero fun hzero => by simp [hzero] at hcovers; omega

/-- Before the period is over the timer does not fire. -/
theorem fires_early (hc : t.count = 0) (ht : t.timeout ≠ 0) (hd : ticks ≠ 0) {n : Nat}
    (hn : n + 1 < period t.timeout ticks) : t.fires ticks n = false := by
  have hnext := (timeout_le_period hd t.timeout).2 _ hn
  rw [Nat.succ_mul] at hnext
  have hlt : n * ticks.toNat < t.timeout.toNat := by omega
  obtain ⟨hcount, htimeout⟩ := after_of_lt hc ht hlt
  rw [fires, tick_of_lt (by rwa [htimeout]) (by rwa [hcount, htimeout])]

/-- With the period over the timer fires and starts again, if its count did not wrap. -/
theorem tick_of_period (hc : t.count = 0) (ht : t.timeout ≠ 0) (hd : ticks ≠ 0) {n : Nat}
    (hn : n + 1 = period t.timeout ticks) :
    (period t.timeout ticks * ticks.toNat < UInt32.size → (t.after ticks n).tick ticks = (true, t)) ∧
      (UInt32.size ≤ period t.timeout ticks * ticks.toNat → t.fires ticks n = false) := by
  obtain ⟨hcovers, hless⟩ := timeout_le_period hd t.timeout
  have hlt := hless n (by omega)
  rw [← hn, Nat.succ_mul] at hcovers ⊢
  obtain ⟨hcount, htimeout⟩ := after_of_lt hc ht hlt
  have ht' : (t.after ticks n).timeout ≠ 0 := by rwa [htimeout]
  constructor
  · intro hfits
    rw [tick_of_le ht' (by rwa [hcount]) (by rwa [hcount, htimeout]), htimeout, ← hc]
  · intro hwrap
    have hticks := ticks.toNat_lt
    rw [fires, tick_of_wrap ht' (by rwa [hcount])]
    rw [hcount, htimeout]
    simp only [UInt32.size]
    omega

/-- The timer fires with the period over, and not before, as often as the period goes by. -/
theorem firings_eq (hc : t.count = 0) (ht : t.timeout ≠ 0) (hd : ticks ≠ 0)
    (hfits : period t.timeout ticks * ticks.toNat < UInt32.size) (n : Nat) :
    t.firings ticks n = n / period t.timeout ticks := by
  have hpos := period_pos ht hd
  have hdue := (tick_of_period hc ht hd (Nat.sub_add_cancel hpos)).1 hfits
  have hperiodic :
      Function.IsPeriodicPt (fun t : Timer => (t.tick ticks).2) (period t.timeout ticks) t := by
    show t.after ticks _ = t
    rw [← Nat.sub_add_cancel hpos, after_succ, hdue]
  have hiff (i : Nat) : t.fires ticks i = true ↔
      i ≡ period t.timeout ticks - 1 [MOD period t.timeout ticks] := by
    have hlt := Nat.mod_lt i hpos
    have hmod : t.fires ticks i = t.fires ticks (i % period t.timeout ticks) := by
      rw [fires, fires, after, after, hperiodic.iterate_mod_apply]
    rw [hmod, Nat.ModEq, Nat.mod_eq_of_lt (Nat.sub_lt hpos Nat.one_pos)]
    by_cases hlast : i % period t.timeout ticks = period t.timeout ticks - 1
    · rw [hlast, fires, hdue]
      simp
    · rw [fires_early hc ht hd (by omega)]
      simp [hlast]
  have hlast : ¬(period t.timeout ticks - 1) % period t.timeout ticks <
      n % period t.timeout ticks := by
    have hlt := Nat.mod_lt n hpos
    rw [Nat.mod_eq_of_lt (Nat.sub_lt hpos Nat.one_pos)]
    omega
  simp only [firings, hiff, Nat.count_modEq_card _ hpos, if_neg hlast, Nat.add_zero]

/-! ## A count that wraps -/

/-- A count in ticks that divide its range wraps before it reaches a timeout near the end of the
range. -/
theorem tick_of_dvd (ht : t.timeout ≠ 0) (hc : ticks.toNat ∣ t.count.toNat)
    (hd : ticks.toNat ∣ UInt32.size) (hend : UInt32.size < t.timeout.toNat + ticks.toNat) :
    t.tick ticks = (false, { t with count := t.count + ticks }) ∧
      ticks.toNat ∣ (t.count + ticks).toNat := by
  have hsum : ticks.toNat ∣ t.count.toNat + ticks.toNat := hc.add (dvd_refl _)
  refine ⟨?_, by rw [UInt32.toNat_add]; exact (Nat.dvd_mod_iff hd).2 hsum⟩
  have hcount : t.count.toNat < UInt32.size := t.count.toNat_lt
  have hpos : 0 < t.timeout.toNat := UInt32.pos_iff_ne_zero.2 ht
  have hle : t.count.toNat + ticks.toNat ≤ UInt32.size :=
    Nat.le_of_lt_add_of_dvd (Nat.add_lt_add_right hcount _) hsum hd
  by_cases hfits : t.count.toNat + ticks.toNat < UInt32.size
  · have hnext : t.count.toNat + ticks.toNat + ticks.toNat ≤ UInt32.size :=
      Nat.le_of_lt_add_of_dvd (Nat.add_lt_add_right hfits _) (hsum.add (dvd_refl _)) hd
    exact tick_of_lt ht (by omega)
  · exact tick_of_wrap ht (by omega) (by omega)

/-- Such a timer never fires. -/
theorem never_fires (hc : t.count = 0) (ht : t.timeout ≠ 0) (hd : ticks.toNat ∣ UInt32.size)
    (hend : UInt32.size < t.timeout.toNat + ticks.toNat) (n : Nat) : t.fires ticks n = false := by
  have hafter : (t.after ticks n).timeout = t.timeout ∧
      ticks.toNat ∣ (t.after ticks n).count.toNat := by
    induction n with
    | zero => exact ⟨rfl, by rw [after, Function.iterate_zero_apply, hc]; exact dvd_zero _⟩
    | succ n ih =>
      obtain ⟨htimeout, hcount⟩ := ih
      obtain ⟨htick, hnext⟩ := tick_of_dvd (by rwa [htimeout]) hcount hd (by rwa [htimeout])
      rw [after_succ, htick]
      exact ⟨htimeout, hnext⟩
  obtain ⟨htimeout, hcount⟩ := hafter
  rw [fires, (tick_of_dvd (by rwa [htimeout]) hcount hd (by rwa [htimeout])).1]

/-! ## A count that does not wrap -/

/-- The timer can be advanced until it fires without its count wrapping. -/
structure Unwrapped (t : Timer) (ticks : UInt32) : Prop where
  enabled : t.timeout ≠ 0
  count : t.count.toNat + ticks.toNat < UInt32.size
  timeout : t.timeout.toNat + ticks.toNat ≤ UInt32.size

theorem Unwrapped.tick (h : t.Unwrapped ticks) :
    t.tick ticks = (true, { t with count := 0 }) ∨
      ∃ t', t.tick ticks = (false, t') ∧ t'.Unwrapped ticks ∧ t'.timeout = t.timeout ∧
        t'.count.toNat = t.count.toNat + ticks.toNat ∧ t'.count.toNat < t.timeout.toNat := by
  by_cases hle : t.timeout.toNat ≤ t.count.toNat + ticks.toNat
  · exact .inl (tick_of_le h.enabled h.count hle)
  · have hlt := Nat.not_le.1 hle
    have hcount : (t.count + ticks).toNat = t.count.toNat + ticks.toNat := by
      rw [UInt32.toNat_add, Nat.mod_eq_of_lt h.count]
    refine .inr ⟨_, tick_of_lt h.enabled hlt, ⟨h.enabled, ?_, h.timeout⟩, rfl, hcount, ?_⟩
    · show (t.count + ticks).toNat + ticks.toNat < _
      have := h.timeout
      omega
    · rwa [← hcount] at hlt

end

end Timer

/-! ## Resolving an address again -/

namespace Memory

section
variable {space : AddressSpace} {slot : Slot} {vaddr : UInt32} {access : Access} {user : Bool}
  {m m' : Memory}

/-- What the caches hold of a page is what they answer. -/
theorem resolve_of_cached {frame : UInt32}
    (hline : ∀ other, m.path.line slot access.writes =
      some ⟨rightOf access user, pageNumber vaddr, other, m.tlb.generation⟩ → other = frame)
    (hfind : m.Missed slot vaddr access user →
      ∃ mapping, m.tlb.find? (rightOf access user) (pageNumber vaddr) = some mapping ∧
        mapping.frame = frame) :
    ∃ m', resolve space slot vaddr access user m = .ok (frame ||| pageOffset vaddr) m' ∧
      m'.ram = m.ram := by
  have hresult := resolve_resolved space slot vaddr access user m
  generalize resolve space slot vaddr access user m = result at hresult
  cases hresult with
  | remembered hl =>
    obtain rfl := hline _ hl
    exact ⟨_, rfl, rfl⟩
  | found hm hf =>
    obtain ⟨mapping, hfound, rfl⟩ := hfind hm
    obtain rfl := Option.some.inj (hf.symm.trans hfound)
    exact ⟨_, rfl, rfl⟩
  | walked hm hf _ | faulted hm hf _ =>
    obtain ⟨mapping, hfound, -⟩ := hfind hm
    rw [hf] at hfound
    cases hfound

/-- An address that was resolved is resolved to the same place again, without a walk. -/
theorem resolve_again {pa : UInt32} (h : resolve space slot vaddr access user m = .ok pa m') :
    ∃ m'', resolve space slot vaddr access user m' = .ok pa m'' ∧ m''.ram = m'.ram := by
  have hresult := resolve_resolved space slot vaddr access user m
  rw [h] at hresult
  cases hresult with
  | remembered hl =>
    have hagain := (m.path.line_answered slot access.writes).trans hl
    refine resolve_of_cached (fun other hother => ?_) fun hm => absurd hagain (hm _)
    exact (congrArg CachedPage.frame (Option.some.inj (hagain.symm.trans hother))).symm
  | found hm hf =>
    exact resolve_of_cached
      (fun other hother => congrArg CachedPage.frame (AccessPath.eq_of_line_fill_self hother))
      fun _ => ⟨_, hf, rfl⟩
  | @walked mapping ram hm hf hw =>
    refine resolve_of_cached
      (fun other hother => congrArg CachedPage.frame (AccessPath.eq_of_line_fill_self hother))
      fun _ => ⟨{ mapping with frame := pageBase mapping.frame }, ?_, pageBase_of_walk hw⟩
    have hgrants := grants_of_walk hw
    rw [Tlb.find?_insert_self]
    exact Option.filter_eq_some_iff.2 ⟨rfl, hgrants⟩

end

end Memory

/-! ## Waiting -/

namespace Machine

/-- The kernel waits with the timer enabled and no input at the console. -/
structure Idling (m : Machine) : Prop where
  next : m.next? = some .idle
  kernel : m.regs.user = false
  iena : m.regs.iena = true
  timer : m.timer.timeout ≠ 0
  quiet : m.bridge.console.pending = []

/-- `n` steps in which the machine waited and no device did anything. -/
inductive Waits : Nat → Machine → Machine → Prop
  | start (m : Machine) : Waits 0 m m
  | step {n : Nat} {m m₁ m' : Machine} : step m = .ok .go m₁ → m.next? = some .idle →
      m₁.regs.pc = m.regs.pc → m₁.journal = m.journal → Waits n m₁ m' → Waits (n + 1) m m'

/-- The timer expired, and its interrupt entered the kernel. -/
structure Expired (m m' : Machine) : Prop where
  journal : m'.journal = .interrupted .timer :: .timerExpired :: m.journal
  count : m'.timer.count = 0
  pc : m'.regs.pc = m.regs.ivec
  trap : m'.regs.trap = Fault.timer.code

variable {m m' : Machine}

theorem next?_eq_some_iff {op : Operation} :
    m.next? = some op ↔ m.regs.pc &&& 3 = 0 ∧ ∃ pa memory,
      Memory.resolve m.regs.space .code m.regs.pc .fetch m.regs.user m.memory = .ok pa memory ∧
        (Instruction.mk (memory.ram.read32 pa)).operation? = some op := by
  rw [next?, fetch_apply]
  by_cases halign : m.regs.pc &&& 3 = 0
  · rw [if_pos halign]
    cases Memory.resolve m.regs.space .code m.regs.pc .fetch m.regs.user m.memory <;> simp [halign]
  · simp [halign]

theorem poll_of_quiet {b : Bridge} (h : b.console.pending = []) :
    b.poll.1 = .quiet ∧ b.poll.2.console.pending = [] := by
  have hpolled := b.polled_poll
  generalize b.poll.1 = event, b.poll.2 = b' at hpolled
  cases hpolled with
  | quiet supply _ => exact ⟨rfl, h⟩
  | key hk | escape hk =>
    rw [h] at hk
    cases hk

/-- The timer expired, and its interrupt is about to enter the kernel. -/
structure Rung (m m' : Machine) : Prop where
  journal : m'.journal = .timerExpired :: m.journal
  count : m'.timer.count = 0
  ivec : m'.regs.ivec = m.regs.ivec
  user : m'.regs.user = m.regs.user

/-- The timer was advanced at most, and it is still running. -/
structure Rested (m m' : Machine) : Prop where
  quiet : m'.bridge.console.pending = []
  journal : m'.journal = m.journal
  timeout : m'.timer.timeout = m.timer.timeout
  unwrapped : m'.timer.Unwrapped pollInterval
  count : m.timer.count.toNat ≤ m'.timer.count.toNat

theorem ticked_of_tick {ticks : UInt32} {fired : Bool} {t : Timer}
    (h : m.timer.tick ticks = (fired, t)) :
    m.ticked ticks =
      { m with timer := t, journal := if fired then .timerExpired :: m.journal else m.journal } := by
  rw [ticked, h]

theorem waited_of_tick {fired : Bool} {t : Timer} (h : m.timer.tick pollInterval = (fired, t)) :
    m.waited =
      { m with
        regs := { m.regs with cycle := m.regs.cycle + pollInterval.toUInt64 }
        timer := t
        journal := if fired then .timerExpired :: m.journal else m.journal } :=
  ticked_of_tick (m := { m with
    regs := { m.regs with cycle := m.regs.cycle + pollInterval.toUInt64 } }) h

/-- Where interrupts are enabled and no key comes, only the timer may take the turn. -/
theorem turn_of_quiet (hq : m.bridge.console.pending = []) (ht : m.timer.Unwrapped pollInterval) :
    (m.turn.1 = .interrupt .timer ∧ m.Rung m.turn.2) ∨
      m.turn.1 = .quiet none ∧ m.Rested m.turn.2 := by
  obtain ⟨hpoll, hquiet⟩ := poll_of_quiet hq
  have hheard : m.counted.heard.journal = m.journal := by
    show noted m.journal m.bridge.poll.1 = _
    rw [hpoll, noted]
  rw [turn, hpoll]
  split
  · rcases ht.tick with htick | ⟨t', htick, ht', htimeout, hcount, -⟩
    · left
      rw [ticked_of_tick (m := m.counted.heard) htick, htick]
      exact ⟨rfl, congrArg _ hheard, rfl, rfl, rfl⟩
    · right
      rw [ticked_of_tick (m := m.counted.heard) htick, htick]
      exact ⟨rfl, hquiet, hheard, htimeout, ht', hcount.symm ▸ Nat.le_add_right _ _⟩
  · exact .inr ⟨rfl, hq, rfl, rfl, ht, Nat.le_refl _⟩

/-- Waiting takes a poll interval, after which the timer may expire. -/
theorem idle_of_quiet (hi : m.regs.iena = true) (hq : m.bridge.console.pending = [])
    (ht : m.timer.Unwrapped pollInterval) :
    (∃ m₁, m.Rung m₁ ∧
      idle m = (liftM (raiseInterrupt .timer) >>= fun _ => pure Flow.go : Exec Flow) m₁) ∨
      ∃ m₁, m.Rested m₁ ∧ idle m = .ok .go m₁ ∧ m₁.memory = m.memory ∧
        (∃ cycle, m₁.regs = { m.regs with cycle, pc := m.ipc }) ∧
        m₁.timer.count.toNat = m.timer.count.toNat + 4096 ∧
        m₁.timer.count.toNat < m.timer.timeout.toNat := by
  obtain ⟨hpoll, hquiet⟩ := poll_of_quiet hq
  have hs : (m.timer.enabled || m.bridge.console.isOpen) = true := by
    simp [Timer.enabled, ht.enabled]
  have hheard : m.heard.journal = m.journal := by
    show noted m.journal m.bridge.poll.1 = _
    rw [hpoll, noted]
  rw [idle_apply hi hs, hpoll]
  dsimp only
  rcases ht.tick with htick | ⟨t', htick, ht', htimeout, hcount, hlt⟩
  · left
    have hfired : (m.heard.timer.tick pollInterval).1 = true := congrArg Prod.fst htick
    refine ⟨m.heard.waited, ?_, if_pos hfired⟩
    rw [waited_of_tick (m := m.heard) htick]
    exact ⟨congrArg _ hheard, rfl, rfl, rfl⟩
  · right
    have hfired : ¬(m.heard.timer.tick pollInterval).1 = true := by
      rw [show m.heard.timer.tick pollInterval = _ from htick]
      exact Bool.false_ne_true
    rw [if_neg hfired, waited_of_tick (m := m.heard) htick]
    refine ⟨_, ?_, rfl, rfl, ⟨_, rfl⟩, hcount, hlt⟩
    exact ⟨hquiet, hheard, htimeout, ht', hcount.symm ▸ Nat.le_add_right _ _⟩

/-- An interrupt enters the kernel, unless the kernel's stack gives out. -/
theorem Rung.rest {m₁ : Machine} (h : m.Rung m₁) (hu : m.regs.user = false) :
    (∃ m', (Turned.interrupt .timer).rest m₁ = .ok .go m' ∧ m.Expired m') ∨
      ∃ m', (Turned.interrupt .timer).rest m₁ = .error .kernelStackFault m' := by
  rw [Turned.rest, bind_apply]
  cases hr : raiseInterrupt .timer m₁ with
  | error reason m' =>
    obtain rfl := raiseInterrupt_eq_error hr
    exact .inr ⟨m', rfl⟩
  | ok _ m' =>
    refine .inl ⟨m', rfl, ?_⟩
    obtain ⟨memory, -, rfl⟩ := raiseInterrupt_eq_ok_iff.1 hr
    refine ⟨congrArg _ h.journal, h.count, h.ivec, ?_⟩
    show m₁.regs.entryCode .timer = _
    rw [Registers.entryCode, h.user, hu]
    rfl

/-- A machine that waits still waits after a poll and after it ran the instruction. -/
theorem Idling.again (h : m.Idling) {cycle : UInt64} (hregs : m'.regs = { m.regs with cycle })
    (hmemory : m'.memory = m.memory ∨ ∃ pa,
      Memory.resolve m.regs.space .code m.regs.pc .fetch m.regs.user m.memory = .ok pa m'.memory)
    (hr : m.Rested m') : m'.Idling := by
  obtain ⟨halign, pa, memory, hresolve, hop⟩ := next?_eq_some_iff.1 h.next
  refine ⟨next?_eq_some_iff.2 ?_, ?_, ?_, hr.unwrapped.enabled, hr.quiet⟩
  · rw [hregs]
    rcases hmemory with hsame | ⟨pa', hresolve'⟩
    · rw [hsame]
      exact ⟨halign, pa, memory, hresolve, hop⟩
    · obtain ⟨rfl, rfl⟩ := EStateM.Result.ok.inj (hresolve.symm.trans hresolve')
      obtain ⟨memory', hagain, hram⟩ := Memory.resolve_again hresolve
      refine ⟨halign, pa, memory', hagain, ?_⟩
      rw [hram]
      exact hop
  · rw [hregs]
    exact h.kernel
  · rw [hregs]
    exact h.iena

theorem Rung.of_rested {m₁ : Machine} (hr : m.Rested m₁) (hivec : m₁.regs.ivec = m.regs.ivec)
    (huser : m₁.regs.user = m.regs.user) (h : m₁.Rung m') : m.Rung m' :=
  ⟨hr.journal ▸ h.journal, h.count, h.ivec.trans hivec, h.user.trans huser⟩

theorem Rested.trans {m₁ : Machine} (h : m.Rested m₁) (h' : m₁.Rested m') : m.Rested m' :=
  ⟨h'.quiet, h'.journal.trans h.journal, h'.timeout.trans h.timeout, h'.unwrapped,
    h.count.trans h'.count⟩

/-- An interrupt that an instruction raises ends the step as one that a poll raises. -/
theorem executeGuarded_of_raise {cause : Fault}
    (h : executeNext m = (liftM (raiseInterrupt cause) >>= fun _ => pure Flow.go : Exec Flow) m') :
    executeGuarded m = (Turned.interrupt cause).rest m' := by
  rw [executeGuarded, h, bind_apply, liftDelivery_apply, Turned.rest, bind_apply]
  cases raiseInterrupt cause m' <;> rfl

/-- An instruction that waits ends with the timer's interrupt, or a poll interval went by and it is
the next instruction again. -/
theorem Idling.executeGuarded (h : m.Idling) (ht : m.timer.Unwrapped pollInterval) :
    (∃ m₁, m.Rung m₁ ∧ Machine.executeGuarded m = (Turned.interrupt .timer).rest m₁) ∨
      ∃ m₁, Machine.executeGuarded m = .ok .go m₁ ∧ m₁.Idling ∧ m.Rested m₁ ∧
        m₁.regs.pc = m.regs.pc ∧ m₁.timer.count.toNat = m.timer.count.toNat + 4096 ∧
        m₁.timer.count.toNat < m.timer.timeout.toNat := by
  obtain ⟨halign, pa, memory, hresolve, hop⟩ := next?_eq_some_iff.1 h.next
  have hexecute : executeNext m = idle _ :=
    executeNext_of_fetch (fetch_of_resolved halign hresolve) hop fun hu =>
      absurd (h.kernel.symm.trans hu) Bool.false_ne_true
  rcases idle_of_quiet (m := { m with
      regs := { m.regs with pc := m.regs.pc + 4 }, memory, ipc := m.regs.pc
      ir := ⟨memory.ram.read32 pa⟩ }) h.iena h.quiet ht with
    ⟨m₁, hrung, hidle⟩ | ⟨m₁, hrested, hidle, hmemory, ⟨cycle, hregs⟩, hcount, hlt⟩
  · exact .inl ⟨m₁, ⟨hrung.journal, hrung.count, hrung.ivec, hrung.user⟩,
      executeGuarded_of_raise (hexecute.trans hidle)⟩
  · right
    have hrested : m.Rested m₁ :=
      ⟨hrested.quiet, hrested.journal, hrested.timeout, hrested.unwrapped, hrested.count⟩
    have hmemory : m₁.memory = memory := hmemory
    have hagain : m₁.Idling :=
      h.again hregs (.inr ⟨pa, by rw [hmemory]; exact hresolve⟩) hrested
    refine ⟨m₁, ?_, hagain, hrested, by rw [hregs], hcount, hlt⟩
    rw [Machine.executeGuarded, hexecute.trans hidle]

/-- A step of a machine that waits ends with the timer's interrupt, or the machine still waits and a
poll interval went by. -/
theorem Idling.step (h : m.Idling) (ht : m.timer.Unwrapped pollInterval) :
    (∃ m₁, m.Rung m₁ ∧ Machine.step m = (Turned.interrupt .timer).rest m₁) ∨
      ∃ m', Machine.step m = .ok .go m' ∧ m'.Idling ∧ m.Rested m' ∧ m'.regs.pc = m.regs.pc ∧
        m.timer.count.toNat + 4096 ≤ m'.timer.count.toNat ∧
        m'.timer.count.toNat < m.timer.timeout.toNat := by
  rw [step_of_iena h.iena]
  rcases turn_of_quiet h.quiet ht with ⟨hturn, hrung⟩ | ⟨hturn, hrested⟩
  · exact .inl ⟨_, hrung, by rw [hturn]⟩
  obtain ⟨cycle, timer, bridge, journal, hm₁⟩ := turn_eq m
  rw [hturn]
  generalize m.turn.2 = m₁ at hrested hm₁ ⊢
  have hidling : m₁.Idling := h.again (by rw [hm₁]) (.inl (by rw [hm₁])) hrested
  rcases hidling.executeGuarded hrested.unwrapped with
    ⟨m₂, hrung, hrest⟩ | ⟨m₂, hgo, hagain, hrested', hpc, hcount, hlt⟩
  · exact .inl ⟨m₂, .of_rested hrested (by rw [hm₁]) (by rw [hm₁]) hrung, hrest⟩
  · refine .inr ⟨m₂, hgo, hagain, hrested.trans hrested', by rw [hpc, hm₁], ?_, ?_⟩
    · rw [hcount]
      exact Nat.add_le_add_right hrested.count _
    · rwa [← hrested.timeout]

/-- A machine that waits is interrupted by the timer when the poll intervals that went by cover the
timeout, if not before. -/
theorem Idling.delivered {k : Nat} (h : m.Idling) (ht : m.timer.Unwrapped pollInterval)
    (hpos : 0 < k) (hcovers : m.timer.timeout.toNat ≤ m.timer.count.toNat + 4096 * k) :
    ∃ n < k, ∃ m₁, Waits n m m₁ ∧ m₁.next? = some .idle ∧
      ((∃ m', Machine.step m₁ = .ok .go m' ∧ m₁.Expired m') ∨
        ∃ m', Machine.step m₁ = .error .kernelStackFault m') := by
  induction k generalizing m with
  | zero => exact absurd hpos (Nat.lt_irrefl 0)
  | succ k ih =>
    rcases h.step ht with ⟨m₁, hrung, hrest⟩ | ⟨m₁, hgo, hidling, hrested, hpc, hcount, hlt⟩
    · refine ⟨0, hpos, m, .start m, h.next, ?_⟩
      rw [hrest]
      exact hrung.rest h.kernel
    · obtain ⟨n, hn, m₂, hwaits, hlast⟩ := ih hidling hrested.unwrapped (by omega)
        (by rw [hrested.timeout]; omega)
      exact ⟨n + 1, Nat.succ_lt_succ hn, m₂,
        .step hgo h.next hpc hrested.journal hwaits, hlast⟩

/-! ## A machine that waits -/

/-- The kernel of one instruction, which waits for the timer. -/
def dozing : Machine :=
  { regs := { iena := true, ivec := 256, sp := 4096 }
    memory :=
      { ram := (Ram.zeroed 16384).write32 0 208
        tlb := .ofCapacity 64
        path := .make true }
    timer := { timeout := 10000 } }

theorem idling_dozing : dozing.Idling := by
  have hsize : dozing.memory.ram.bytes.size = 16384 := by
    simp only [dozing, Ram.size_write32, Ram.size_zeroed]
    decide
  have hword : dozing.memory.ram.read32 0 = 208 := by
    refine Ram.read32_write32 (Ram.holds_iff.2 ?_) _
    simp only [Ram.size_zeroed]
    decide
  have hpc : pageBase dozing.regs.pc < dozing.memory.ram.size := by
    rw [Ram.size, hsize]
    decide
  obtain ⟨memory, -, -, hfetch⟩ := fetch_of_direct (m := dozing) (.fresh _ _ _ _) rfl rfl hpc
  refine ⟨?_, rfl, rfl, by decide, rfl⟩
  rw [next?_of_fetch hfetch, show dozing.memory.ram.read32 dozing.regs.pc = 208 from hword]
  decide +kernel

end Machine

/-! ## Main results -/

open Timer Machine

/-- A timer that starts from zero does not fire before its period is over. It fires then if and only
if the period fits in the range of the count; if so it starts again, and over `n` ticks it fires once
in each period. A machine that waits for the same timeout without input runs the waiting instruction
no more often than the period says before the timer's interrupt is delivered, or is fatal for want of
room on the kernel's stack. -/
theorem fires_on_time {t : Timer} {ticks : UInt32} (hc : t.count = 0) (ht : t.timeout ≠ 0)
    (hd : ticks ≠ 0) :
    (∀ n, n + 1 < period t.timeout ticks → t.fires ticks n = false) ∧
      (t.fires ticks (period t.timeout ticks - 1) = true ↔
        period t.timeout ticks * ticks.toNat < UInt32.size) ∧
      (period t.timeout ticks * ticks.toNat < UInt32.size →
        t.after ticks (period t.timeout ticks) = t ∧
          ∀ n, t.firings ticks n = n / period t.timeout ticks) ∧
      ∀ m : Machine, m.Idling → m.timer.timeout = t.timeout →
        m.timer.count.toNat + pollInterval.toNat < UInt32.size →
        period t.timeout pollInterval * pollInterval.toNat < UInt32.size →
        ∃ n < period t.timeout pollInterval, ∃ m₁, Waits n m m₁ ∧ m₁.next? = some .idle ∧
          ((∃ m', step m₁ = .ok .go m' ∧ m₁.Expired m') ∨
            ∃ m', step m₁ = .error .kernelStackFault m') := by
  have hlast := Nat.sub_add_cancel (period_pos ht hd)
  obtain ⟨hdue, hlate⟩ := tick_of_period hc ht hd hlast
  refine ⟨fun n hn => fires_early hc ht hd hn, ⟨fun hfires => ?_, fun hfits => ?_⟩,
    fun hfits => ⟨?_, firings_eq hc ht hd hfits⟩, fun m hm htimeout hcount hfits => ?_⟩
  · refine Nat.not_le.1 fun hwrap => ?_
    rw [hlate hwrap] at hfires
    cases hfires
  · rw [fires, hdue hfits]
  · rw [← hlast, after_succ, hdue hfits]
  · rw [← htimeout] at hfits ⊢
    have hinterval : pollInterval.toNat = 4096 := by decide
    have hpoll : pollInterval ≠ 0 := by decide
    have hcovers := (timeout_le_period hpoll m.timer.timeout).1
    rw [hinterval] at hfits hcovers
    refine hm.delivered ⟨hm.timer, hcount, ?_⟩ (period_pos hm.timer hpoll) (by omega)
    rw [hinterval]
    simp only [UInt32.size] at hfits ⊢
    omega

theorem fires_on_time_dozing :
    Timer.fires { timeout := 10000 } 4096 0 = false ∧ Timer.fires { timeout := 10000 } 4096 2 = true ∧
      Timer.firings { timeout := 10000 } 4096 10 = 3 ∧
      ∃ n < 3, ∃ m, Waits n dozing m ∧
        ((∃ m', step m = .ok .go m' ∧ m.Expired m') ∨ ∃ m', step m = .error .kernelStackFault m') := by
  have hperiod : period 10000 4096 = 3 := by decide
  obtain ⟨hearly, hdue, hagain, hwaits⟩ :=
    @fires_on_time { timeout := 10000 } 4096 rfl (by decide) (by decide)
  dsimp only at hearly hdue hagain
  rw [hperiod] at hearly hdue hagain
  refine ⟨hearly 0 (by decide), hdue.2 (by decide), (hagain (by decide)).2 10, ?_⟩
  obtain ⟨n, hn, m, hm, -, hlast⟩ := hwaits dozing idling_dozing rfl (by decide) (by decide)
  exact ⟨n, hn, m, hm, hlast⟩

/-- A period that does not fit in the range of the count makes the timer late. One that is advanced by
poll intervals and has the longest timeout never fires. -/
theorem expiry_missed :
    (¬∀ (t : Timer) (ticks : UInt32), t.count = 0 → t.timeout ≠ 0 → ticks ≠ 0 →
      t.fires ticks (period t.timeout ticks - 1) = true) ∧
    ∀ n, Timer.fires { timeout := 0xffffffff } pollInterval n = false := by
  refine ⟨fun hall => ?_, never_fires rfl (by decide) (by decide) (by decide)⟩
  have hfires := hall { timeout := 0xffffffff } 0x80000000 rfl (by decide) (by decide)
  rw [never_fires rfl (by decide) (by decide) (by decide)] at hfires
  cases hfires

end PagedMachine
