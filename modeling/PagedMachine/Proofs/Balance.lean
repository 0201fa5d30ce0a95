import PagedMachine.Proofs.Signals

/-!
# What a step keeps of interrupts

Two invariants of `Signals`. `Signals.Guarded`: user mode has interrupts enabled, and while they are
enabled none is pending. `Signals.Balanced`: every key and every expiry of the timer is delivered once
or still pending, but for expiries while one is pending already. Both hold of what comes before an
instruction (`Guarded.ticked`, `Ticked.balanced`) and of the instruction (`Guarded.executed`,
`Executed.balanced`).
-/

set_option autoImplicit false

namespace PagedMachine

/-! ## Pending interrupts -/

namespace Fault

/-- The bits that can be pending. -/
theorem pending_cases {p : UInt32} (h : p &&& ~~~3 = 0) : p = 0 ∨ p = 1 ∨ p = 2 ∨ p = 3 := by
  have hclear := toNat_and_not p 3
  have hlow : (p &&& 3).toNat = p.toNat % 4 := by
    rw [UInt32.toNat_and]
    exact Nat.and_two_pow_sub_one_eq_mod p.toNat 2
  rw [h, hlow] at hclear
  have hlt : p.toNat = 0 ∨ p.toNat = 1 ∨ p.toNat = 2 ∨ p.toNat = 3 := by
    simp only [UInt32.toNat_zero] at hclear
    omega
  exact hlt.imp (UInt32.toNat_inj.1 ·) (·.imp (UInt32.toNat_inj.1 ·)
    (·.imp (UInt32.toNat_inj.1 ·) (UInt32.toNat_inj.1 ·)))

/-- How many interrupts of a kind are pending: one or none. -/
def waits (pending : UInt32) (cause : Fault) : Nat :=
  if pending &&& cause.pendingBit = 0 then 0 else 1

section
variable {p : UInt32} (h : p &&& ~~~3 = 0)
include h

theorem pending_or (cause : Fault) : (p ||| cause.pendingBit) &&& ~~~3 = 0 := by
  have hbit : cause.pendingBit &&& ~~~3 = 0 := by cases cause <;> simp only [pendingBit] <;> decide
  rw [or_and_distrib, h, hbit]
  rfl

theorem pending_clear (cause : Fault) : (p &&& ~~~cause.pendingBit) &&& ~~~3 = 0 := by
  rw [UInt32.and_assoc, UInt32.and_comm (~~~cause.pendingBit), ← UInt32.and_assoc, h, UInt32.zero_and]

theorem eq_zero_of_ofPending? (hp : ofPending? p = none) : p = 0 := by
  rcases pending_cases h with rfl | rfl | rfl | rfl
  · rfl
  · cases hp
  · cases hp
  · cases hp

theorem waits_keyboard_or :
    waits (p ||| keyboard.pendingBit) keyboard = 1 ∧
      waits (p ||| keyboard.pendingBit) timer = waits p timer := by
  rcases pending_cases h with rfl | rfl | rfl | rfl <;> decide

theorem waits_timer_or :
    waits (p ||| timer.pendingBit) timer = 1 ∧
      waits (p ||| timer.pendingBit) keyboard = waits p keyboard := by
  rcases pending_cases h with rfl | rfl | rfl | rfl <;> decide

/-- The lowest pending interrupt is one of the two, and clearing it leaves the other. -/
theorem waits_clear {cause : Fault} (hp : ofPending? p = some cause) :
    (cause = timer ∧ waits p timer = 1 ∧ waits (p &&& ~~~cause.pendingBit) timer = 0 ∧
        waits (p &&& ~~~cause.pendingBit) keyboard = waits p keyboard) ∨
      cause = keyboard ∧ waits p keyboard = 1 ∧ waits (p &&& ~~~cause.pendingBit) keyboard = 0 ∧
        waits (p &&& ~~~cause.pendingBit) timer = waits p timer := by
  rcases pending_cases h with rfl | rfl | rfl | rfl
  · cases hp
  all_goals
    obtain rfl := Option.some.inj hp
    decide

end

end Fault

namespace Signals

variable {s s' s₁ : Signals}

/-! ## The guard -/

/-- What holds of the interrupt registers between two steps. -/
structure Guarded (s : Signals) : Prop where
  user : s.user = true → s.iena = true
  enabled : s.iena = true → s.ipend = 0
  only : s.ipend &&& ~~~3 = 0

namespace Guarded

theorem heard {event : ConsoleEvent} (h : s.Guarded) (hs : s.Heard event s') : s'.Guarded := by
  cases hs with
  | quiet => exact h
  | key => exact ⟨h.user, h.enabled, h.only⟩
  | escape => exact ⟨h.user, h.enabled, h.only⟩

theorem interrupted (h : s.Guarded) (cause : Fault) : (s.interrupted cause).Guarded :=
  ⟨nofun, nofun, h.only⟩

theorem expired (h : s.Guarded) : s.expired.Guarded := ⟨h.user, h.enabled, h.only⟩

theorem posted {cause : Fault} {flow : Option Flow} (h : s.Guarded)
    (hs : s.Posted cause flow s') : s'.Guarded := by
  cases hs with
  | delivered => exact h.interrupted cause
  | pended hi =>
    exact ⟨h.user, fun h' => absurd (h'.symm.trans hi) nofun, Fault.pending_or h.only cause⟩

theorem ticked {flow : Option Flow} (h : s.Guarded) (hs : s.Ticked flow s') : s'.Guarded := by
  have hkey {flow : Option Flow} {s₁ : Signals} (hk : s.KeyPolled flow s₁) : s₁.Guarded := by
    cases hk with
    | quiet => exact h
    | escape hh => exact h.heard hh
    | key _ hh hp => exact (h.heard hh).posted hp
  cases hs with
  | ended hk => exact hkey hk
  | timed hk ht =>
    cases ht with
    | quiet => exact hkey hk
    | expired hp => exact (hkey hk).expired.posted hp

theorem executed {op : Option Operation} (h : s.Guarded) (hs : s.Executed op s') : s'.Guarded := by
  cases hs with
  | calm => exact h
  | keyRead => exact ⟨h.user, h.enabled, h.only⟩
  | faulted => exact ⟨nofun, h.enabled, h.only⟩
  | masked hu => exact ⟨fun h' => absurd (h'.symm.trans hu) nofun, nofun, h.only⟩
  | resumed user _ hi => exact ⟨fun _ => hi, h.enabled, h.only⟩
  | enabled user _ hp => exact ⟨fun _ => rfl, fun _ => Fault.eq_zero_of_ofPending? h.only hp, h.only⟩
  | redelivered => exact ⟨nofun, nofun, Fault.pending_clear h.only _⟩
  | escaped hh => exact h.heard hh
  | woken _ hh => exact (h.heard hh).interrupted _
  | expired => exact ⟨nofun, nofun, h.only⟩

end Guarded

/-- A step that goes on to its instruction is still in the same mode. -/
theorem Ticked.same (h : s.Ticked none s') : s'.user = s.user ∧ s'.iena = s.iena := by
  have hheard {event : ConsoleEvent} {s₁ : Signals} (hh : s.Heard event s₁) :
      s₁.user = s.user ∧ s₁.iena = s.iena := by
    cases hh <;> exact ⟨rfl, rfl⟩
  cases h with
  | timed hk ht =>
    have hkey {s₁ : Signals} (hk : s.KeyPolled none s₁) : s₁.user = s.user ∧ s₁.iena = s.iena := by
      cases hk with
      | quiet => exact ⟨rfl, rfl⟩
      | key _ hh hp =>
        have hsame := hheard hh
        cases hp with
        | pended => exact hsame
    have hsame := hkey hk
    cases ht with
    | quiet => exact hsame
    | expired hp =>
      cases hp with
      | pended => exact hsame

/-! ## The balance -/

/-- From `s` to `s'` these bytes were taken from the console and these events noted; what came was
delivered or is pending, but for expiries that were `absorbed`. -/
structure Balanced (s : Signals) (bytes : List UInt8) (events : List Event) (absorbed : Nat)
    (s' : Signals) : Prop where
  input : s.input = bytes ++ s'.input
  journal : s'.journal = events ++ s.journal
  escape : s'.escape = s.escape
  keys : bytes.countP (fun b => s.escape ≠ some b) + Fault.waits s.ipend .keyboard =
    events.count (.interrupted .keyboard) + Fault.waits s'.ipend .keyboard
  timer : events.count .timerExpired + Fault.waits s.ipend .timer =
    events.count (.interrupted .timer) + Fault.waits s'.ipend .timer + absorbed

namespace Balanced

/-- What is the same in the journal, the input and the pending interrupts is balanced. -/
theorem same (hinput : s'.input = s.input) (hjournal : s'.journal = s.journal)
    (hescape : s'.escape = s.escape) (hipend : s'.ipend = s.ipend) : s.Balanced [] [] 0 s' :=
  ⟨hinput.symm, hjournal, hescape, by rw [hipend]; rfl, by rw [hipend]; rfl⟩

theorem trans {bytes bytes' : List UInt8} {events events' : List Event} {absorbed absorbed' : Nat}
    (h : s.Balanced bytes events absorbed s₁) (h' : s₁.Balanced bytes' events' absorbed' s') :
    s.Balanced (bytes ++ bytes') (events' ++ events) (absorbed + absorbed') s' := by
  refine ⟨?_, ?_, h'.escape.trans h.escape, ?_, ?_⟩
  · rw [h.input, h'.input, List.append_assoc]
  · rw [h'.journal, h.journal, List.append_assoc]
  · have hkeys := h.keys
    have hkeys' := h'.keys
    rw [h.escape] at hkeys'
    rw [List.countP_append, List.count_append]
    omega
  · have htimer := h.timer
    have htimer' := h'.timer
    rw [List.count_append, List.count_append]
    omega

/-- The escape byte is not for the guest. -/
theorem escape_taken (h : s.Heard .escape s') : ∃ bytes, s.Balanced bytes [] 0 s' := by
  cases h with
  | @escape b rest hinput hescape =>
    refine ⟨[b], hinput, rfl, rfl, ?_, rfl⟩
    rw [List.countP_singleton, hescape]
    simp

/-- A key interrupts. -/
theorem key_delivered {b : UInt8} (h : s.Heard (.key b) s₁) :
    ∃ bytes,
      s.Balanced bytes [.interrupted .keyboard, .keyLatched b] 0 (s₁.interrupted .keyboard) := by
  cases h with
  | @key _ rest hinput hescape =>
    refine ⟨[b], hinput, rfl, rfl, ?_, ?_⟩
    · rw [List.countP_singleton]
      simp [Signals.interrupted, latched, hescape]
    · simp [Signals.interrupted, latched]

/-- A key is left pending, which none was before. -/
theorem key_pended {b : UInt8} (h : s.Heard (.key b) s₁) (honly : s.ipend &&& ~~~3 = 0)
    (hnone : Fault.waits s.ipend .keyboard = 0) :
    ∃ bytes, s.Balanced bytes [.keyLatched b] 0 (s₁.pended .keyboard) := by
  cases h with
  | @key _ rest hinput hescape =>
    obtain ⟨hkeyboard, htimer⟩ := Fault.waits_keyboard_or honly
    refine ⟨[b], hinput, rfl, rfl, ?_, ?_⟩
    · rw [List.countP_singleton, hnone, show (s.latched b rest).pended .keyboard = _ from rfl]
      simp [pended, latched, hescape, hkeyboard]
    · simp [pended, latched, htimer]

/-- An expiry interrupts. -/
theorem timer_delivered (s : Signals) :
    s.Balanced [] [.interrupted .timer, .timerExpired] 0 (s.expired.interrupted .timer) := by
  refine ⟨rfl, rfl, rfl, ?_, ?_⟩
  · simp [Signals.interrupted, Signals.expired]
  · simp [Signals.interrupted, Signals.expired]

/-- An expiry is left pending; it is absorbed if one was pending before. -/
theorem timer_pended (honly : s.ipend &&& ~~~3 = 0) :
    s.Balanced [] [.timerExpired] (Fault.waits s.ipend .timer) (s.expired.pended .timer) := by
  obtain ⟨htimer, hkeyboard⟩ := Fault.waits_timer_or honly
  refine ⟨rfl, rfl, rfl, ?_, ?_⟩
  · simp [pended, Signals.expired, hkeyboard]
  · simp [pended, Signals.expired, htimer]

/-- The lowest pending interrupt is delivered after all. -/
theorem redelivered {cause : Fault} (honly : s.ipend &&& ~~~3 = 0)
    (hp : Fault.ofPending? s.ipend = some cause) :
    s.Balanced [] [.interrupted cause] 0 ((s.cleared cause).interrupted cause) := by
  rcases Fault.waits_clear honly hp with ⟨rfl, hone, hzero, hother⟩ | ⟨rfl, hone, hzero, hother⟩
  · refine ⟨rfl, rfl, rfl, ?_, ?_⟩
    · simp [Signals.interrupted, cleared, hother]
    · simp [Signals.interrupted, cleared, hone, hzero]
  · refine ⟨rfl, rfl, rfl, ?_, ?_⟩
    · simp [Signals.interrupted, cleared, hone, hzero]
    · simp [Signals.interrupted, cleared, hother]

end Balanced

/-- The poll of the console is balanced and leaves the timer alone. -/
theorem KeyPolled.balanced {flow : Option Flow} (hg : s.Guarded) (h : s.KeyPolled flow s') :
    ∃ bytes events, s.Balanced bytes events 0 s' ∧
      Fault.waits s'.ipend .timer = Fault.waits s.ipend .timer ∧ .timerExpired ∉ events ∧
      (s.iena = false → ∀ cause, .interrupted cause ∉ events) := by
  cases h with
  | quiet => exact ⟨[], [], .same rfl rfl rfl rfl, rfl, by simp, by simp⟩
  | escape hh =>
    obtain ⟨bytes, hb⟩ := Balanced.escape_taken hh
    have htimer := hb.timer
    exact ⟨bytes, [], hb, by simpa using htimer.symm, by simp, by simp⟩
  | @key b _ s₁ _ hpoll hh hp =>
    have hiena : s₁.iena = s.iena := by cases hh; rfl
    cases hp with
    | delivered hi =>
      obtain ⟨bytes, hb⟩ := Balanced.key_delivered hh
      have htimer := hb.timer
      refine ⟨bytes, _, hb, by simpa using htimer.symm, by simp, fun hoff => ?_⟩
      exact absurd ((hi.symm.trans hiena).trans hoff) nofun
    | pended hi =>
      have hnone : Fault.waits s.ipend .keyboard = 0 := by
        rw [hiena.symm.trans hi] at hpoll
        rw [Fault.waits, if_pos (by simpa using hpoll)]
      obtain ⟨bytes, hb⟩ := Balanced.key_pended hh hg.only hnone
      have htimer := hb.timer
      exact ⟨bytes, _, hb, by simpa using htimer.symm, by simp, by simp⟩

/-- So is the turn of the timer, but for what is absorbed. -/
theorem TimerPolled.balanced {flow : Option Flow} (hg : s.Guarded) (h : s.TimerPolled flow s') :
    ∃ events, s.Balanced [] events (Fault.waits s.ipend .timer * events.count .timerExpired) s' ∧
      (s.iena = false → ∀ cause, .interrupted cause ∉ events) := by
  cases h with
  | quiet => exact ⟨[], .same rfl rfl rfl rfl, by simp⟩
  | expired hp =>
    cases hp with
    | delivered hi =>
      have hnone : Fault.waits s.ipend .timer = 0 := by
        rw [hg.enabled hi]
        rfl
      refine ⟨[.interrupted .timer, .timerExpired], ?_,
        fun hoff => absurd (hi.symm.trans hoff) nofun⟩
      rw [hnone, Nat.zero_mul]
      exact .timer_delivered s
    | pended =>
      refine ⟨[.timerExpired], ?_, by simp⟩
      rw [List.count_singleton_self, Nat.mul_one]
      exact .timer_pended hg.only

theorem Ticked.balanced {flow : Option Flow} (hg : s.Guarded) (h : s.Ticked flow s') :
    ∃ bytes events,
      s.Balanced bytes events (Fault.waits s.ipend .timer * events.count .timerExpired) s' ∧
      (s.iena = false → ∀ cause, .interrupted cause ∉ events) := by
  cases h with
  | ended hk =>
    obtain ⟨bytes, events, hb, -, hnone, hmasked⟩ := hk.balanced hg
    refine ⟨bytes, events, ?_, hmasked⟩
    rwa [List.count_eq_zero.2 hnone]
  | @timed _ s₁ _ hk ht =>
    obtain ⟨bytes, events, hb, hwaits, hnone, hmasked⟩ := hk.balanced hg
    have hg₁ : s₁.Guarded := hg.ticked (.timed hk .quiet)
    have hiena : s₁.iena = s.iena := (Ticked.same (.timed hk .quiet)).2
    obtain ⟨events', hb', hmasked'⟩ := ht.balanced hg₁
    refine ⟨bytes ++ [], events' ++ events, ?_, fun hoff cause hmem => ?_⟩
    · have hsum := hb.trans hb'
      rwa [hwaits, Nat.zero_add, ← Nat.add_zero (events'.count _),
        ← List.count_eq_zero.2 hnone, ← List.count_append] at hsum
    · rcases List.mem_append.1 hmem with hmem | hmem
      · exact hmasked' (hiena.trans hoff) cause hmem
      · exact hmasked hoff cause hmem

/-- An instruction absorbs no expiry. While interrupts are masked it sees none, and delivers one only
by enabling them. -/
theorem Executed.balanced {op : Option Operation} (hg : s.Guarded) (h : s.Executed op s') :
    ∃ bytes events, s.Balanced bytes events 0 s' ∧
      (s.iena = false → .timerExpired ∉ events ∧ ∀ cause, .interrupted cause ∈ events →
        op = some .enableInterrupts ∨ op = some .returnFromInterrupt) := by
  cases h with
  | calm => exact ⟨[], [], .same rfl rfl rfl rfl, by simp⟩
  | keyRead b => exact ⟨[], [.keyRead b], ⟨rfl, rfl, rfl, by simp, by simp⟩, by simp⟩
  | faulted => exact ⟨[], [], .same rfl rfl rfl rfl, by simp⟩
  | masked => exact ⟨[], [], .same rfl rfl rfl rfl, by simp⟩
  | resumed => exact ⟨[], [], .same rfl rfl rfl rfl, by simp⟩
  | enabled => exact ⟨[], [], .same rfl rfl rfl rfl, by simp⟩
  | redelivered hop _ hp => exact ⟨[], _, .redelivered hg.only hp, fun _ => ⟨by simp, fun _ _ => hop⟩⟩
  | escaped hh =>
    obtain ⟨bytes, hb⟩ := Balanced.escape_taken hh
    exact ⟨bytes, [], hb, by simp⟩
  | woken hi hh =>
    obtain ⟨bytes, hb⟩ := Balanced.key_delivered hh
    exact ⟨bytes, _, hb, fun hoff => absurd (hi.symm.trans hoff) nofun⟩
  | expired hi => exact ⟨[], _, .timer_delivered s, fun hoff => absurd (hi.symm.trans hoff) nofun⟩

end Signals

end PagedMachine
