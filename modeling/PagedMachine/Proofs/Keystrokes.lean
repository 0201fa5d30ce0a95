import PagedMachine.Proofs.Interrupts
import PagedMachine.Proofs.Loading
import PagedMachine.Proofs.Parts
import PagedMachine.Proofs.Unpaged

/-!
# Keys keep their order

Bytes go from the console into the latch, by polls before an instruction and while one waits, and from
the latch to the guest, by the instruction that reads a key. `Keys.Drained` says what code may do to
them: it takes bytes off the front, and the latch holds one of these or what it held. So what is read
in a run is a subsequence of what was typed, without the escape byte (`Moves.typed`). While the
interrupt of a key is pending, interrupts are masked and nothing polls the console, so its byte is not
overwritten before the interrupt is delivered (`Held.moves`). Input may arrive at any time, also
between a poll and the instruction behind it (`Move.arrival`).
-/

set_option autoImplicit false

namespace PagedMachine

/-! ## Waiting bytes and the latch -/

structure Keys where
  waiting : List UInt8
  latch : Option UInt8
  escape : Option UInt8

namespace Keys

variable {k k' k'' : Keys}

/-- Whether a byte is for the guest. -/
def typed (k : Keys) (b : UInt8) : Bool := k.escape ≠ some b

/-- From `k` to `k'` bytes were taken, of which the latch may hold one if it is for the guest. -/
structure Drained (k k' : Keys) : Prop where
  escape : k'.escape = k.escape
  taken : ∃ bytes, k.waiting = bytes ++ k'.waiting ∧
    k'.latch.toList.Sublist (k.latch.toList ++ bytes.filter k.typed)

theorem Drained.refl (k : Keys) : k.Drained k := ⟨rfl, [], rfl, by simp⟩

theorem Drained.trans (h : k.Drained k') (h' : k'.Drained k'') : k.Drained k'' := by
  obtain ⟨hescape, bytes, hwaiting, hlatch⟩ := h
  obtain ⟨hescape', bytes', hwaiting', hlatch'⟩ := h'
  have htyped : k'.typed = k.typed := by
    funext b
    rw [typed, hescape, typed]
  refine ⟨hescape'.trans hescape, bytes ++ bytes', ?_, ?_⟩
  · rw [hwaiting, hwaiting', List.append_assoc]
  · rw [htyped] at hlatch'
    rw [List.filter_append, ← List.append_assoc]
    exact hlatch'.trans (hlatch.append_right _)

end Keys

namespace Machine

def keys (m : Machine) : Keys where
  waiting := m.bridge.console.pending
  latch := m.bridge.latch
  escape := m.bridge.escape

theorem shielded_keys : Shielded keys := fun _ _ _ _ _ _ _ _ _ _ _ _ => rfl

theorem secluded_keys : Secluded keys := fun _ _ _ _ _ _ _ => rfl

section
variable {m m' : Machine}

/-- Code that leaves the keys alone drains nothing. -/
theorem Keeps.drained {ε α : Type} {x : EStateM ε Machine α} (h : Keeps keys x) (m : Machine) :
    m.keys.Drained (stateOf (x m)).keys := by
  rw [h m]
  exact .refl _

theorem drained_poll (m : Machine) :
    m.keys.Drained (keys { m with bridge := m.bridge.poll.2 }) := by
  have hp := m.bridge.polled_poll
  generalize m.bridge.poll.1 = event at hp
  generalize m.bridge.poll.2 = bridge at hp ⊢
  cases hp with
  | quiet supply hpending => exact .refl _
  | @key b rest hpending hne =>
    refine ⟨rfl, [b], hpending, ?_⟩
    have htyped : m.keys.typed b = true := decide_eq_true hne
    rw [List.filter_cons_of_pos htyped]
    exact List.sublist_append_right _ _
  | @escape b rest hpending heq => exact ⟨rfl, [b], hpending, List.sublist_append_left _ _⟩

/-- All code only drains keys. -/
theorem parts_drained : Parts fun x => ∀ m : Machine, m.keys.Drained (stateOf (x m)).keys where
  pure _ _ := .refl _
  throw _ _ := .refl _
  bind hx hf := transition_bind (T := fun m m' => m.keys.Drained m'.keys) .trans hx hf
  handle {_ _ _ x _} hx hf m := by
    have h := hx m
    rw [handle_apply]
    cases hr : x m with
    | ok a m₁ => rwa [hr] at h
    | error e m₁ =>
      rw [hr] at h
      exact h.trans (hf e m₁)
  look _ hf m := hf m m
  apart {_ _ fn} hfn m := by
    rw [modifyGet_apply, stateOf_ok]
    cases hfn with
    | poll => exact drained_poll m
    | takeKey => exact ⟨rfl, [], rfl, List.nil_sublist _⟩
    | put fd b => exact (secluded_keys.put fd b).drained m
    | _ => exact .refl _
  sockets {_ fn} _ := (secluded_keys.onSockets fn).drained
  size hf m := hf m.memory.ram.size m
  reading hn hread := (shielded_keys.plain.addressed.reading hn hread).drained
  reading₂ hb ha hread := (shielded_keys.plain.addressed.reading₂ hb ha hread).drained
  writing hn := (shielded_keys.plain.addressed.writing hn).drained
  copying hb ha := (shielded_keys.plain.addressed.copying hb ha).drained
  setDirectory i := (shielded_keys.perform secluded_keys
    (show Operation.setDirectory.interrupts = false from rfl) nofun i).drained
  setPaging i := (shielded_keys.perform secluded_keys
    (show Operation.setPaging.interrupts = false from rfl) nofun i).drained
  invalidatePath _ := .refl _

theorem looksBack_drained : LooksBack fun x => ∀ m : Machine, m.keys.Drained (stateOf (x m)).keys :=
  fun hf m => hf m.ipc m

/-! ## Operations -/

theorem keys_raiseInterrupt {cause : Fault} {u : Unit} (h : raiseInterrupt cause m = .ok u m') :
    m'.keys = m.keys := by
  obtain ⟨memory, -, rfl⟩ := raiseInterrupt_eq_ok_iff.1 h
  rfl

theorem keys_enableInterrupts {u : Unit} (h : enableInterrupts m = .ok u m') :
    m'.keys = m.keys := by
  rw [enableInterrupts_apply] at h
  split at h
  · exact (keys_raiseInterrupt h).trans rfl
  · obtain ⟨-, rfl⟩ := EStateM.Result.ok.inj h
    rfl

theorem keys_returnFromInterrupt {u : Unit} (h : returnFromInterrupt m = .ok u m') :
    m'.keys = m.keys := by
  obtain ⟨code, pc, memory, h⟩ := returnFromInterrupt_eq_ok h
  dsimp only at h
  split at h
  · obtain ⟨-, rfl⟩ := EStateM.Result.ok.inj h
    rfl
  · exact (keys_enableInterrupts h).trans rfl

/-- Reading a key empties the latch. -/
theorem perform_readKey (i : Instruction) (m : Machine) :
    ∃ m', perform .readKey i m = .ok () m' ∧ m'.keys = { m.keys with latch := none } ∧
      m'.regs.a = (m.keys.latch.map UInt8.toUInt32).getD 0xffffffff := by
  simp only [perform, bind_apply, getRegs_apply, show
    (onBridge (·.takeKey) : Exec (Option UInt8)) m =
      .ok m.bridge.latch { m with bridge := { m.bridge with latch := none } } from rfl]
  cases hl : m.bridge.latch with
  | some b => exact ⟨_, rfl, rfl, by simp only [keys, hl]; rfl⟩
  | none => exact ⟨_, rfl, rfl, by simp only [keys, hl]; rfl⟩

/-- No other operation takes part. -/
theorem keys_perform {op : Operation} {i : Instruction} {u : Unit} (hop : op ≠ .readKey)
    (h : perform op i m = .ok u m') : m'.keys = m.keys := by
  by_cases htimer : op = .setTimer
  · subst htimer
    simp only [perform, bind_apply, getRegs_apply] at h
    split at h <;> (obtain ⟨-, rfl⟩ := EStateM.Result.ok.inj h; rfl)
  cases hinterrupts : op.interrupts with
  | false => exact (shielded_keys.perform secluded_keys hinterrupts htimer i).of_ok h
  | true =>
    rw [perform, bind_apply, getRegs_apply] at h
    cases op with
    | idle | disableInterrupts =>
      obtain ⟨-, rfl⟩ := EStateM.Result.ok.inj h
      rfl
    | enableInterrupts => exact keys_enableInterrupts (liftDelivery_eq_ok h)
    | returnFromInterrupt => exact keys_returnFromInterrupt (liftDelivery_eq_ok h)
    | readKey => exact absurd rfl hop
    | _ => cases hinterrupts

/-- What the instruction at the program counter gives the guest if it reads a key: the byte, or
nothing if it finds none. -/
def returned (m : Machine) : List UInt32 :=
  match m.next?, executeNext m with
  | some .readKey, .ok _ m' => [m'.regs.a].filter (· ≠ 0xffffffff)
  | _, _ => []

theorem toUInt32_ne (b : UInt8) : b.toUInt32 ≠ 0xffffffff := by
  intro h
  have h := congrArg UInt32.toNat h
  have hb := b.toNat_lt
  simp only [UInt8.toNat_toUInt32, UInt32.reduceToNat] at h
  omega

/-- An instruction gives the guest what is in the latch and empties it, or gives nothing. In the latter
case it leaves the keys alone unless it waits, which it does with interrupts enabled. -/
theorem keys_executeNext {flow : Flow} (h : executeNext m = .ok flow m') :
    (m.returned = m.keys.latch.toList.map UInt8.toUInt32 ∧ m'.keys = { m.keys with latch := none }) ∨
      m.returned = [] ∧ m.keys.Drained m'.keys ∧ (m.regs.iena = false → m'.keys = m.keys) := by
  have hdrained := parts_drained.executeNext looksBack_drained m
  rw [h, stateOf_ok] at hdrained
  obtain ⟨i, op, m₁, hfetch, hop, -, hexecute⟩ := executeNext_eq_ok h
  have hfetched : m₁.keys = m.keys := shielded_keys.plain.fetch.of_ok hfetch
  by_cases hread : op = .readKey
  · subst hread
    left
    obtain ⟨m₂, hperform, hkeys, ha⟩ := perform_readKey i m₁
    have hdone : execute .readKey i m₁ = .ok .go m₂ := execute_of_perform nofun nofun hperform
    obtain ⟨-, rfl⟩ := EStateM.Result.ok.inj (hdone.symm.trans hexecute)
    rw [hfetched] at hkeys ha
    refine ⟨?_, hkeys⟩
    rw [returned, hop, h]
    cases hl : m.keys.latch with
    | none => simp [ha, hl]
    | some b => simp [ha, hl, toUInt32_ne]
  · right
    have hreturned : m.returned = [] := by
      rw [returned, hop]
      split
      · rename_i heq _
        exact absurd (Option.some.inj heq) hread
      · rfl
    refine ⟨hreturned, hdrained, fun hi => ?_⟩
    have hi₁ : m₁.regs.iena = false :=
      (congrArg Signals.iena (shielded_signals.plain.fetch.of_ok hfetch)).trans hi
    rw [← hfetched]
    unfold execute at hexecute
    split at hexecute
    · obtain ⟨-, rfl⟩ := EStateM.Result.ok.inj hexecute
      rfl
    · rw [idle_of_masked hi₁] at hexecute
      cases hexecute
    · obtain ⟨_, m₂, hperform, hpure⟩ := bind_eq_ok_iff.1 hexecute
      obtain ⟨-, rfl⟩ := EStateM.Result.ok.inj hpure
      exact keys_perform hread hperform

/-- So does an instruction whose fault is delivered. -/
theorem keys_executeGuarded {flow : Flow} (h : executeGuarded m = .ok flow m') :
    (m.returned = m.keys.latch.toList.map UInt8.toUInt32 ∧ m'.keys = { m.keys with latch := none }) ∨
      m.returned = [] ∧ m.keys.Drained m'.keys ∧ (m.regs.iena = false → m'.keys = m.keys) := by
  rw [executeGuarded] at h
  cases hr : executeNext m with
  | ok flow' m₁ =>
    rw [hr] at h
    obtain ⟨-, rfl⟩ := EStateM.Result.ok.inj h
    exact keys_executeNext hr
  | error stop m₁ =>
    rw [hr] at h
    cases stop with
    | fatal reason => cases h
    | fault cause =>
      right
      have hkeys : m'.keys = m.keys := by
        dsimp only at h
        split at h
        · rename_i hraise
          obtain ⟨-, rfl⟩ := EStateM.Result.ok.inj h
          obtain ⟨-, hdeliver⟩ := raiseException_eq_ok_iff.1 hraise
          obtain ⟨memory, -, rfl⟩ := deliver_eq_ok_iff.1 hdeliver
          have hfault := shielded_keys.of_fault secluded_keys hr
          exact hfault
        · cases h
      refine ⟨?_, hkeys ▸ .refl _, fun _ => hkeys⟩
      rw [returned, hr]
      split
      · rename_i heq
        cases heq
      · rfl

/-! ## Before the instruction -/

/-- A key that a poll brings was the first byte that waited, and is in the latch. -/
theorem keys_heard {b : UInt8} (h : m.bridge.poll.1 = .key b) :
    m.keys.waiting = b :: m.heard.keys.waiting ∧ m.keys.typed b = true ∧
      m.heard.keys.latch = some b := by
  have hp := m.bridge.polled_poll
  simp only [heard, keys]
  rw [h] at hp
  generalize m.bridge.poll.2 = bridge at hp ⊢
  cases hp with
  | key hpending hne => exact ⟨hpending, decide_eq_true hne, rfl⟩

/-- The turn of the timer leaves the keys and their interrupt alone. -/
theorem keys_pollTimer {ended : Option Flow} (h : pollTimer m = .ok ended m')
    (honly : m.regs.ipend &&& ~~~3 = 0) :
    m'.keys = m.keys ∧
      Fault.waits m'.regs.ipend .keyboard = Fault.waits m.regs.ipend .keyboard ∧
      (m.regs.iena = false → ended = none ∧ m'.regs.iena = false) := by
  rw [pollTimer_apply] at h
  split at h
  · rcases postAndEnd_eq_ok h with ⟨hi, -, hraise⟩ | ⟨hi, rfl, rfl⟩
    · obtain ⟨memory, -, rfl⟩ := raiseInterrupt_eq_ok_iff.1 hraise
      exact ⟨rfl, rfl, fun hoff => absurd (hi.symm.trans hoff) nofun⟩
    · exact ⟨rfl, (Fault.waits_timer_or honly).2, fun _ => ⟨rfl, hi⟩⟩
  · obtain ⟨rfl, rfl⟩ := EStateM.Result.ok.inj h
    exact ⟨rfl, rfl, fun hi => ⟨rfl, hi⟩⟩

/-- What a poll of the console does to the keys and their interrupt. -/
inductive KeyTurn (m : Machine) : Option Flow → Machine → Prop
  | idle {ended : Option Flow} {m' : Machine} : m'.regs.ipend = m.regs.ipend → KeyTurn m ended m'
  | pended {b : UInt8} {m' : Machine} : m.keys.waiting = b :: m'.keys.waiting →
      m.keys.typed b = true → m'.keys.latch = some b → m'.regs.iena = false →
      m'.regs.ipend = m.regs.ipend ||| Fault.keyboard.pendingBit → KeyTurn m none m'

theorem keyTurn_of_poll {ended : Option Flow} (h : pollKeyboard m = .ok ended m') :
    m.KeyTurn ended m' := by
  rw [pollKeyboard_apply] at h
  split at h
  · split at h
    · obtain ⟨-, rfl⟩ := EStateM.Result.ok.inj h
      exact .idle rfl
    · rename_i b hkey
      obtain ⟨hwaiting, htyped, hlatch⟩ := keys_heard hkey
      rcases postAndEnd_eq_ok h with ⟨-, -, hraise⟩ | ⟨hi, rfl, rfl⟩
      · obtain ⟨memory, -, rfl⟩ := raiseInterrupt_eq_ok_iff.1 hraise
        exact .idle rfl
      · exact .pended hwaiting htyped hlatch hi rfl
    · obtain ⟨-, rfl⟩ := EStateM.Result.ok.inj h
      exact .idle rfl
  · obtain ⟨-, rfl⟩ := EStateM.Result.ok.inj h
    exact .idle rfl

/-- If the devices' turn leaves the interrupt of a key pending, which was not, it took the byte of that
key. -/
theorem keys_of_pended {ended : Option Flow} (h : tick m = .ok ended m')
    (hbefore : Fault.waits m.regs.ipend .keyboard = 0)
    (hafter : Fault.waits m'.regs.ipend .keyboard = 1) (honly : m.regs.ipend &&& ~~~3 = 0) :
    ended = none ∧ m'.regs.iena = false ∧ ∃ b, m.keys.waiting = b :: m'.keys.waiting ∧
      m.keys.typed b = true ∧ m'.keys.latch = some b := by
  have hchanged {m₁ : Machine} (hw : Fault.waits m₁.regs.ipend .keyboard = 1) :
      m₁.regs.ipend ≠ m.regs.ipend := by
    intro he
    rw [he, hbefore] at hw
    cases hw
  rw [tick_apply] at h
  split at h
  · rcases pollDevices_eq_ok h with ⟨hsome, hkey⟩ | ⟨m₁, hkey, htimer⟩
    · cases keyTurn_of_poll hkey with
      | idle hsame => exact absurd hsame (hchanged hafter)
      | pended => cases hsome
    · cases keyTurn_of_poll hkey with
      | idle hsame =>
        have honly₁ : m₁.regs.ipend &&& ~~~3 = 0 := by rwa [hsame]
        obtain ⟨-, hwaits, -⟩ := keys_pollTimer htimer honly₁
        exact absurd hsame (hchanged (hwaits.symm.trans hafter))
      | @pended b _ hwaiting htyped hlatch hi hp =>
        have honly₁ : m₁.regs.ipend &&& ~~~3 = 0 := by
          rw [hp]
          exact Fault.pending_or honly .keyboard
        obtain ⟨hkeys, -, hmasked⟩ := keys_pollTimer htimer honly₁
        rw [← hkeys] at hwaiting hlatch
        exact ⟨(hmasked hi).1, (hmasked hi).2, b, hwaiting, htyped, hlatch⟩
  · obtain ⟨-, rfl⟩ := EStateM.Result.ok.inj h
    exact absurd rfl (hchanged hafter)

/-- While the interrupt of a key is pending, the devices have their turn without the console. -/
theorem keys_of_masked {ended : Option Flow} (h : tick m = .ok ended m')
    (hi : m.regs.iena = false) (hp : Fault.waits m.regs.ipend .keyboard = 1)
    (honly : m.regs.ipend &&& ~~~3 = 0) :
    m'.keys = m.keys ∧ m'.regs.iena = false ∧ Fault.waits m'.regs.ipend .keyboard = 1 := by
  rw [tick_apply] at h
  split at h
  · have hunpolled : pollKeyboard m.counted = .ok none m.counted := by
      rw [pollKeyboard_apply, if_neg]
      intro hpoll
      have hclear : m.regs.ipend &&& Fault.keyboard.pendingBit = 0 := by
        simpa [counted, hi] using hpoll
      rw [Fault.waits, if_pos hclear] at hp
      cases hp
    rw [pollDevices, bind_apply, hunpolled] at h
    obtain ⟨hkeys, hwaits, hmasked⟩ := keys_pollTimer h honly
    exact ⟨hkeys, (hmasked hi).2, hwaits.trans hp⟩
  · obtain ⟨-, rfl⟩ := EStateM.Result.ok.inj h
    exact ⟨rfl, hi, hp⟩

end

end Machine

open Machine

/-! ## Along a run -/

/-- Where a run is: between two steps, or in one before its instruction. -/
structure Place where
  machine : Machine
  /-- Whether the devices had their turn and the instruction is next. -/
  begun : Bool

/-- How a run goes on, the bytes that arrive at the console and what the guest is given. Whenever
something arrives, the host may also take output, serve sockets and end the input. -/
inductive Move : Place → List UInt8 → List UInt32 → Place → Prop
  | arrival (m : Machine) (begun : Bool) (bytes : List UInt8) (supply : Supply) (output : ByteArray)
      (sockets : Sockets) :
      Move ⟨m, begun⟩ bytes []
        ⟨{ m with
            bridge := { m.bridge with
              console := ⟨m.bridge.console.pending ++ bytes, supply, output⟩, sockets } },
          begun⟩
  | polled {m m' : Machine} : tick m = .ok none m' → Move ⟨m, false⟩ [] [] ⟨m', true⟩
  | ended {m m' : Machine} {flow : Flow} : tick m = .ok (some flow) m' →
      Move ⟨m, false⟩ [] [] ⟨m', false⟩
  | executed {m m' : Machine} {flow : Flow} : executeGuarded m = .ok flow m' →
      Move ⟨m, true⟩ [] m.returned ⟨m', false⟩

/-- The places that a run comes to from `start`, with all bytes that arrived and all that the guest was
given. -/
inductive Moves (start : Place) : List UInt8 → List UInt32 → Place → Prop
  | start : Moves start [] [] start
  | move {bytes more : List UInt8} {given further : List UInt32} {p p' : Place} :
      Moves start bytes given p → Move p more further p' →
      Moves start (bytes ++ more) (given ++ further) p'

/-- A step is made of moves. -/
theorem Moves.step {start : Place} {bytes : List UInt8} {given : List UInt32} {m m' : Machine}
    {flow : Flow} (h : Moves start bytes given ⟨m, false⟩) (hstep : step m = .ok flow m') :
    ∃ further, Moves start bytes (given ++ further) ⟨m', false⟩ := by
  cases hr : tick m with
  | error reason m₁ =>
    rw [step_of_tick_error hr] at hstep
    cases hstep
  | ok ended m₁ =>
    cases ended with
    | some flow' =>
      rw [step_of_tick_some hr] at hstep
      obtain ⟨-, rfl⟩ := EStateM.Result.ok.inj hstep
      have hmoves := h.move (.ended hr)
      rw [List.append_nil] at hmoves
      exact ⟨[], hmoves⟩
    | none =>
      rw [step_of_tick hr] at hstep
      have hmoves := (h.move (.polled hr)).move (.executed hstep)
      rw [List.append_nil, List.append_nil, List.append_nil] at hmoves
      exact ⟨_, hmoves⟩

section
variable {start p p' : Place} {bytes more : List UInt8} {given further : List UInt32}

/-! ## The order of keys -/

/-- What the guest was given, and then the byte in the latch, was typed in this order before the bytes
that still wait. -/
structure Typed (escape : Option UInt8) (input : List UInt8) (given : List UInt32) (k : Keys) :
    Prop where
  same : k.escape = escape
  kept : ∃ taken, input = taken ++ k.waiting ∧
    (given ++ k.latch.toList.map UInt8.toUInt32).Sublist
      ((taken.filter fun b => escape ≠ some b).map UInt8.toUInt32)

theorem Typed.drained {escape : Option UInt8} {input : List UInt8} {k k' : Keys}
    (h : Typed escape input given k) (hd : k.Drained k') : Typed escape input given k' := by
  obtain ⟨rfl, taken, rfl, hkept⟩ := h
  obtain ⟨hescape, bytes, hwaiting, hlatch⟩ := hd
  refine ⟨hescape, taken ++ bytes, by rw [hwaiting, List.append_assoc], ?_⟩
  have hmore := hlatch.map UInt8.toUInt32
  rw [List.map_append] at hmore
  rw [List.filter_append, List.map_append]
  refine (hmore.append_left given).trans ?_
  rw [← List.append_assoc]
  exact hkept.append_right _

theorem Typed.move {escape : Option UInt8} {input : List UInt8}
    (h : Typed escape input given p.machine.keys) (hm : Move p more further p') :
    Typed escape (input ++ more) (given ++ further) p'.machine.keys := by
  cases hm with
  | arrival m begun more supply output sockets =>
    obtain ⟨hescape, taken, rfl, hkept⟩ := h
    rw [List.append_nil, List.append_assoc]
    exact ⟨hescape, taken, rfl, hkept⟩
  | @polled m _ htick | @ended m _ _ htick =>
    have hd := parts_drained.tick m
    rw [htick] at hd
    rw [List.append_nil, List.append_nil]
    exact h.drained hd
  | executed hexecuted =>
    rw [List.append_nil]
    rcases keys_executeGuarded hexecuted with ⟨hreturned, hkeys⟩ | ⟨hreturned, hd, -⟩
    · obtain ⟨hescape, taken, rfl, hkept⟩ := h
      rw [hkeys, hreturned]
      exact ⟨hescape, taken, rfl, by simpa using hkept⟩
    · rw [hreturned, List.append_nil]
      exact h.drained hd

theorem Moves.typed {escape : Option UInt8} {input : List UInt8}
    (h : Moves start bytes given p) (hs : Typed escape input [] start.machine.keys) :
    Typed escape (input ++ bytes) given p.machine.keys := by
  induction h with
  | start => rwa [List.append_nil]
  | move _ hmove ih =>
    rw [← List.append_assoc]
    exact ih.move hmove

/-- What the guest is given was typed, in this order. -/
theorem Typed.results_sublist {escape : Option UInt8} {input : List UInt8} {k : Keys}
    (h : Typed escape input given k) :
    given.Sublist ((input.filter fun b => escape ≠ some b).map UInt8.toUInt32) := by
  obtain ⟨-, taken, rfl, hkept⟩ := h
  refine ((List.sublist_append_left _ _).trans hkept).trans (List.Sublist.map _ ?_)
  exact (List.sublist_append_left _ _).filter _

/-! ## Until the interrupt is delivered -/

theorem Move.guarded (hg : p.machine.signals.Guarded) (hm : Move p more further p') :
    p'.machine.signals.Guarded := by
  cases hm with
  | arrival => exact ⟨hg.user, hg.enabled, hg.only⟩
  | polled htick | ended htick => exact hg.ticked (signals_tick htick)
  | executed hexecuted => exact hg.executed (executed_executeGuarded hexecuted)

theorem Moves.guarded (hg : start.machine.signals.Guarded) (h : Moves start bytes given p) :
    p.machine.signals.Guarded := by
  induction h with
  | start => exact hg
  | move _ hmove ih => exact hmove.guarded ih

/-- Events are only added. -/
theorem Move.journal (hg : p.machine.signals.Guarded) (hm : Move p more further p') :
    ∃ events, p'.machine.journal = events ++ p.machine.journal := by
  cases hm with
  | arrival => exact ⟨[], rfl⟩
  | polled htick | ended htick =>
    obtain ⟨_, events, hb, -⟩ := (signals_tick htick).balanced hg
    exact ⟨events, hb.journal⟩
  | executed hexecuted =>
    obtain ⟨_, events, hb, -⟩ := (executed_executeGuarded hexecuted).balanced hg
    exact ⟨events, hb.journal⟩

/-- The interrupt of the key `b` is pending, and the byte is in the latch or was read. The bytes behind
it wait. -/
structure Held (b : UInt8) (waiting : List UInt8) (given : List UInt32) (m : Machine) : Prop where
  masked : m.regs.iena = false
  pending : Fault.waits m.regs.ipend .keyboard = 1
  waiting : m.keys.waiting = waiting
  latch : given = [] ∧ m.keys.latch = some b ∨ given = [b.toUInt32] ∧ m.keys.latch = none

/-- Nothing but the delivery of the interrupt ends this. -/
theorem Held.move {b : UInt8} {waiting : List UInt8} (hg : p.machine.signals.Guarded)
    (h : Held b waiting given p.machine) (hm : Move p more further p')
    (hnot : .interrupted .keyboard ∉ p.machine.since p'.machine) :
    Held b (waiting ++ more) (given ++ further) p'.machine := by
  obtain ⟨hi, hp, rfl, hlatch⟩ := h
  cases hm with
  | arrival m begun more supply output sockets =>
    rw [List.append_nil]
    exact ⟨hi, hp, rfl, hlatch⟩
  | polled htick | ended htick =>
    obtain ⟨hkeys, hi', hp'⟩ := keys_of_masked htick hi hp hg.only
    rw [List.append_nil, List.append_nil]
    exact ⟨hi', hp', congrArg Keys.waiting hkeys, by rwa [hkeys]⟩
  | @executed m m' flow hexecuted =>
    rw [List.append_nil]
    have hkept : m'.regs.iena = false ∧ Fault.waits m'.regs.ipend .keyboard = 1 := by
      have hsignals := executed_executeGuarded hexecuted
      generalize hs' : m'.signals = s' at hsignals
      have hiena : m'.regs.iena = s'.iena := congrArg Signals.iena hs'
      have hipend : m'.regs.ipend = s'.ipend := congrArg Signals.ipend hs'
      have hjournal : m'.journal = s'.journal := congrArg Signals.journal hs'
      have hoff : m.signals.iena ≠ true := fun hon => absurd (hon.symm.trans hi) nofun
      rw [hiena, hipend]
      cases hsignals with
      | calm | keyRead => exact ⟨hi, hp⟩
      | masked => exact ⟨rfl, hp⟩
      | enabled user hu hnone =>
        have hzero : m.regs.ipend = 0 := Fault.eq_zero_of_ofPending? hg.only hnone
        rw [hzero] at hp
        cases hp
      | @redelivered cause hop hu hcause =>
        rcases Fault.waits_clear hg.only hcause with ⟨-, -, -, hother⟩ | ⟨rfl, -, -, -⟩
        · exact ⟨rfl, hother.trans hp⟩
        · have hsince : m.since m' = [.interrupted .keyboard] := since_eq hjournal
          rw [hsince] at hnot
          exact absurd (List.mem_singleton_self _) hnot
      | escaped hh =>
        cases hh with
        | escape => exact ⟨hi, hp⟩
      | faulted hon | resumed user hu hon | woken hon hh | expired hon => exact absurd hon hoff
    rcases keys_executeGuarded hexecuted with ⟨hreturned, hkeys⟩ | ⟨hreturned, -, hkeys⟩
    · refine ⟨hkept.1, hkept.2, by rw [hkeys], .inr ?_⟩
      rcases hlatch with ⟨rfl, hb⟩ | ⟨rfl, hb⟩
      · exact ⟨by rw [hreturned, hb]; rfl, by rw [hkeys]⟩
      · exact ⟨by rw [hreturned, hb]; rfl, by rw [hkeys]⟩
    · rw [hreturned, List.append_nil]
      exact ⟨hkept.1, hkept.2, congrArg Keys.waiting (hkeys hi), by rwa [hkeys hi]⟩

/-- Until the interrupt of the key is delivered no byte is taken from the console, and the latch has
the key until it is read. -/
theorem Held.moves {b : UInt8} {waiting : List UInt8} (hg : start.machine.signals.Guarded)
    (hs : Held b waiting [] start.machine) (h : Moves start bytes given p) :
    ∃ events, p.machine.journal = events ++ start.machine.journal ∧
      (.interrupted .keyboard ∈ events ∨ Held b (waiting ++ bytes) given p.machine) := by
  induction h with
  | start => exact ⟨[], rfl, .inr (by rwa [List.append_nil])⟩
  | move hmoves hmove ih =>
    obtain ⟨events, hevents, hheld⟩ := ih
    have hg' := hmoves.guarded hg
    obtain ⟨further, hfurther⟩ := hmove.journal hg'
    refine ⟨further ++ events, ?_, ?_⟩
    · rw [hfurther, hevents, List.append_assoc]
    · by_cases hdelivered : .interrupted .keyboard ∈ further ++ events
      · exact .inl hdelivered
      rw [List.mem_append, not_or] at hdelivered
      rw [← List.append_assoc]
      refine .inr ((hheld.resolve_left hdelivered.2).move hg' hmove ?_)
      rw [since_eq hfurther]
      exact hdelivered.1

end

/-! ## From loading on -/

/-- What is loaded starts over, with the bridge as it was. -/
theorem Emulator.load_eq_ok {codec : Codec} {files : Files} {image : ByteArray}
    {entry : Image.Entry} {e e' : Emulator} (h : e.load codec files image = (.ok entry, e')) :
    ∃ m : Machine, e'.machine = m.reset entry.pc entry.sp ∧ m.bridge = e.machine.bridge := by
  have hfilesystem : (e.loadFilesystem codec files).2.machine.bridge = e.machine.bridge := by
    rw [loadFilesystem]
    split
    · rfl
    · split <;> rfl
  rw [load] at h
  split at h
  · cases h
  · rename_i e₁ hloaded
    rw [hloaded] at hfilesystem
    have hram : (e₁.onRam (Image.loadExecutable · image)).2.machine.bridge = e₁.machine.bridge := rfl
    rw [loadExecutable] at h
    split at h
    · cases h
    · rename_i entry' m config hentered
      rw [hentered] at hram
      obtain ⟨hentry, rfl⟩ := Prod.mk.inj h
      obtain rfl := Except.ok.inj hentry
      exact ⟨m, rfl, hram.trans hfilesystem⟩

theorem Emulator.bridge_ofConfig {config : Config} {console : Console} {e : Emulator}
    (h : ofConfig? config console = .ok e) :
    e.machine.bridge = { console, escape := config.escape } := by
  simp only [ofConfig?, Bind.bind, Except.bind] at h
  split at h
  · cases h
  · obtain rfl := Except.ok.inj h
    rfl

/-! ## A key while the kernel spins -/

/-- An executable of one instruction, a jump to itself. -/
def spinning : ByteArray :=
  ⟨#[0x0d, 0xf0, 0xde, 0xc0, 0, 0, 0, 0, 0, 0, 0, 0, 0, 0, 0, 0, 0x03, 0xfc, 0xff, 0xff]⟩

/-- A machine that jumped to itself for `cycle` cycles, while a byte waits. -/
structure Machine.Spins (cycle : UInt64) (m : Machine) : Prop where
  direct : m.memory.Direct
  code : m.memory.ram.read32 0 = 0xfffffc03
  inside : pageBase 0 < m.memory.ram.size
  regs : m.regs = { sp := 0x100000, cycle }
  bridge : m.bridge = { console := { pending := [65] }, escape := some 96 }
  timer : m.timer = {}

theorem Machine.Spins.step {cycle : UInt64} {m : Machine} (h : m.Spins cycle)
    (hdue : (cycle + 1) % pollInterval.toUInt64 ≠ 0) :
    ∃ m', Machine.step m = .ok .go m' ∧ m'.Spins (cycle + 1) := by
  obtain ⟨hd, hcode, hin, hregs, hbridge, htimer⟩ := h
  obtain ⟨memory, hd', hram, hstep⟩ := step_of_direct (m := m) 0xfffffc03 .jump hd
    (by rw [hregs]) (by rwa [hregs]) (by simp only [hregs]; decide) (by rwa [hregs])
    (by rwa [hregs]) (by decide +kernel) (fun _ => rfl)
  have hback : (0 + 4 : UInt32) + (Instruction.mk 0xfffffc03).imm = 0 := by decide +kernel
  rw [hregs] at hstep
  let m' : Machine :=
    { m with
      regs := { sp := 0x100000, cycle := cycle + 1 }, memory, ipc := 0, ir := ⟨0xfffffc03⟩ }
  have hperform : perform .jump ⟨0xfffffc03⟩ { m' with regs := { m'.regs with pc := 0 + 4 } } =
      .ok () { m' with regs := { m'.regs with pc := 0 + 4 + (Instruction.mk 0xfffffc03).imm } } := rfl
  rw [hback] at hperform
  exact ⟨m', hstep .go m' (execute_of_perform nofun nofun hperform),
    hd', hram ▸ hcode, hram ▸ hin, rfl, hbridge, htimer⟩

/-- Up to the first poll a step goes on so. -/
theorem Machine.Spins.next {n : Nat} {m : Machine} (h : m.Spins n.toUInt64) (hn : n + 1 < 4096) :
    ∃ m', Machine.step m = .ok .go m' ∧ m'.Spins (n + 1).toUInt64 := by
  have hcycle : n.toUInt64 + 1 = (n + 1).toUInt64 := (UInt64.ofNat_add n 1).symm
  have hdue : (n + 1).toUInt64 % pollInterval.toUInt64 ≠ 0 := fun hdue => by
    have hdue := congrArg UInt64.toNat hdue
    rw [UInt64.toNat_mod, UInt64.toNat_ofNat_of_lt' (Nat.lt_trans hn (by decide))] at hdue
    change (n + 1) % 4096 = 0 at hdue
    omega
  exact hcycle ▸ h.step (hcycle ▸ hdue)

/-- Until the first poll the machine goes on so. -/
theorem Machine.Spins.moves {start : Machine} (h : start.Spins 0) :
    ∀ n < 4096, ∃ given m, Moves ⟨start, false⟩ [] given ⟨m, false⟩ ∧ m.Spins n.toUInt64
  | 0, _ => ⟨_, _, .start, h⟩
  | n + 1, hn => by
    obtain ⟨given, m, hmoves, hspins⟩ := h.moves n (Nat.lt_of_succ_lt hn)
    obtain ⟨m', hstep, hspins'⟩ := hspins.next hn
    obtain ⟨further, hmoves'⟩ := hmoves.step hstep
    exact ⟨_, m', hmoves', hspins'⟩

/-- The first poll takes the byte. -/
theorem Machine.Spins.tick {m : Machine} (h : m.Spins 4095) :
    ∃ m', Machine.tick m = .ok none m' ∧ m'.regs.ipend = Fault.keyboard.pendingBit := by
  obtain ⟨-, -, -, hregs, hbridge, htimer⟩ := h
  have hdue : (m.regs.cycle + 1) % pollInterval.toUInt64 = 0 := by
    rw [hregs]
    decide
  have hpolls : (m.regs.iena || m.regs.ipend &&& Fault.keyboard.pendingBit = 0) = true := by
    rw [hregs]
    decide
  have hkey : m.counted.bridge.poll.1 = .key 65 := by
    rw [show m.counted.bridge = m.bridge from rfl, hbridge]
    decide
  let pended : Machine :=
    { m.counted.heard with
      regs := { m.counted.regs with ipend := m.regs.ipend ||| Fault.keyboard.pendingBit } }
  have hpoll : pollKeyboard m.counted = .ok none pended := by
    rw [pollKeyboard_apply, hkey]
    refine (if_pos hpolls).trans ?_
    dsimp only
    rw [postAndEnd_apply]
    exact if_neg (show ¬m.regs.iena = true by rw [hregs]; exact Bool.false_ne_true)
  refine ⟨pended, ?_, show m.regs.ipend ||| _ = _ by rw [hregs]; rfl⟩
  rw [tick_apply]
  refine (if_pos hdue).trans ?_
  rw [pollDevices, bind_apply, hpoll]
  exact pollTimer_of_disabled (show m.timer.timeout = 0 by rw [htimer])

theorem loadExecutable_spinning {r : Ram} (hr : r.bytes.size = 0x100000) :
    ∃ r', Image.loadExecutable r spinning = (.ok ⟨0, 0x100000⟩, r') ∧ r'.read32 0 = 0xfffffc03 ∧
      r'.size = 0x100000 := by
  have hsp : Image.stackTop r.size = 0x100000 := by
    unfold Ram.size
    rw [hr]
    decide
  have hfits : Image.Fits spinning (Image.stackTop r.size) := by
    rw [hsp]
    exact ⟨by decide, by decide, by decide⟩
  obtain ⟨r', hloaded, hplaced⟩ := Image.loadExecutable_of_fits hfits
  rw [hsp] at hloaded
  have hsize : r'.bytes.size = 0x100000 := hplaced.size.trans hr
  refine ⟨r', hloaded, ?_, ?_⟩
  · rw [Ram.read32, if_pos (Ram.holds_iff.2 (by rw [hsize]; decide)), Ram.word]
    rw [hplaced.payload _ (by decide), hplaced.payload _ (by decide), hplaced.payload _ (by decide),
      hplaced.payload _ (by decide)]
    decide
  · rw [Ram.size, hsize]
    decide

theorem load_spinning {e : Emulator} (hfilesystem : e.config.filesystem = none)
    (hsize : e.machine.memory.ram.bytes.size = 0x100000)
    (hbridge : e.machine.bridge = { console := { pending := [65] }, escape := some 96 })
    (codec : Codec) (files : Files) :
    ∃ e', e.load codec files spinning = (.ok ⟨0, 0x100000⟩, e') ∧ e'.machine.Spins 0 := by
  obtain ⟨r, hloaded, hword, hr⟩ := loadExecutable_spinning hsize
  have hload : e.load codec files spinning = e.loadExecutable spinning := by
    unfold Emulator.load Emulator.loadFilesystem
    rw [hfilesystem]
  refine ⟨_, hload.trans (Emulator.loadExecutable_of_ok hloaded),
    .flush _ (e.machine.withRam r).memory, hword, ?_, rfl, hbridge, rfl⟩
  show pageBase 0 < r.size
  rw [hr]
  decide

/-! ## Main result -/

/-- From loading on, whenever input arrives: what the guest reads of the console are typed bytes other
than the escape byte, in the order they were typed and none twice. If the devices' turn before an
instruction leaves the interrupt of a key pending, which was not, it took the first byte that waited.
Until that interrupt is delivered no other byte is taken, and the latch holds this one until it is
read. -/
theorem keystrokes_kept {config : Config} {console : Console} {codec : Codec} {files : Files}
    {image : ByteArray} {entry : Image.Entry} {e e' : Emulator}
    (hconfig : Emulator.ofConfig? config console = .ok e)
    (hload : e.load codec files image = (.ok entry, e')) {bytes : List UInt8} {given : List UInt32}
    {p : Place} (h : Moves ⟨e'.machine, false⟩ bytes given p) :
    given.Sublist
        (((console.pending ++ bytes).filter fun b => config.escape ≠ some b).map UInt8.toUInt32) ∧
      ∀ ended m, tick p.machine = .ok ended m →
        p.machine.regs.ipend &&& Fault.keyboard.pendingBit = 0 →
        m.regs.ipend &&& Fault.keyboard.pendingBit ≠ 0 →
        ended = none ∧ ∃ b, p.machine.bridge.console.pending = b :: m.bridge.console.pending ∧
          config.escape ≠ some b ∧ m.bridge.latch = some b ∧
          ∀ bytes' given' p', Moves ⟨m, true⟩ bytes' given' p' →
            .interrupted .keyboard ∈ m.since p'.machine ∨
              p'.machine.regs.ipend &&& Fault.keyboard.pendingBit ≠ 0 ∧
              p'.machine.bridge.console.pending = m.bridge.console.pending ++ bytes' ∧
              (given' = [] ∧ p'.machine.bridge.latch = some b ∨
                given' = [b.toUInt32] ∧ p'.machine.bridge.latch = none) := by
  obtain ⟨m₀, hstart, hbridge⟩ := Emulator.load_eq_ok hload
  rw [Emulator.bridge_ofConfig hconfig] at hbridge
  have hkeys : e'.machine.keys = ⟨console.pending, none, config.escape⟩ := by
    rw [hstart]
    show Keys.mk m₀.bridge.console.pending m₀.bridge.latch m₀.bridge.escape = _
    rw [hbridge]
  have htyped : Typed config.escape console.pending [] e'.machine.keys := by
    rw [hkeys]
    exact ⟨rfl, [], rfl, List.nil_sublist _⟩
  have htyped := h.typed htyped
  have hguarded := h.guarded (hstart ▸ guarded_reset entry.pc entry.sp m₀)
  refine ⟨htyped.results_sublist, fun ended m htick hbefore hafter => ?_⟩
  have hpended : Fault.waits m.regs.ipend .keyboard = 1 := if_neg hafter
  obtain ⟨hended, hmasked, b, hwaiting, hb, hlatch⟩ :=
    keys_of_pended htick (if_pos hbefore) hpended hguarded.only
  have hb : config.escape ≠ some b := htyped.same ▸ of_decide_eq_true hb
  refine ⟨hended, b, hwaiting, hb, hlatch, fun bytes' given' p' h' => ?_⟩
  have hheld : Held b m.keys.waiting [] m := ⟨hmasked, hpended, rfl, .inl ⟨rfl, hlatch⟩⟩
  obtain ⟨events, hevents, hheld'⟩ := hheld.moves (hguarded.ticked (signals_tick htick)) h'
  rw [since_eq hevents]
  refine hheld'.imp_right fun hheld' => ⟨fun hclear => ?_, hheld'.waiting, hheld'.latch⟩
  have hpending := hheld'.pending
  rw [Fault.waits, if_pos hclear] at hpending
  cases hpending

theorem keystrokes_kept_spinning :
    let config : Config := { megabytes := 1, tlbCapacity := 1 }
    let files : Files := fun _ => none
    ∃ e entry e' given p ended m, Emulator.ofConfig? config { pending := [65] } = .ok e ∧
      e.load .stored files spinning = (.ok entry, e') ∧ Moves ⟨e'.machine, false⟩ [] given p ∧
      tick p.machine = .ok ended m ∧ p.machine.regs.ipend &&& Fault.keyboard.pendingBit = 0 ∧
      m.regs.ipend &&& Fault.keyboard.pendingBit ≠ 0 ∧ m.bridge.latch = some 65 := by
  intro config files
  let e : Emulator :=
    { machine := .make (.zeroed config.memoryBytes) true 1
        { console := { pending := [65] }, escape := some 96 }
      config }
  have hconfig : Emulator.ofConfig? config { pending := [65] } = .ok e := rfl
  obtain ⟨e', hload, hspins⟩ := load_spinning (e := e) rfl
    ((Ram.size_zeroed _).trans (by decide)) rfl .stored files
  obtain ⟨given, m₀, hmoves, hspins⟩ := hspins.moves 4095 (by decide)
  obtain ⟨m, htick, hpended⟩ := hspins.tick
  have hbefore : m₀.regs.ipend &&& Fault.keyboard.pendingBit = 0 := by
    rw [hspins.regs]
    decide
  have hafter : m.regs.ipend &&& Fault.keyboard.pendingBit ≠ 0 := by
    rw [hpended]
    decide
  refine ⟨e, _, e', given, _, none, m, hconfig, hload, hmoves, htick, hbefore, hafter, ?_⟩
  obtain ⟨-, b, hb, -, hlatch, -⟩ :=
    (keystrokes_kept hconfig hload hmoves).2 none m htick hbefore hafter
  have hwaiting : m₀.bridge.console.pending = [65] := by rw [hspins.bridge]
  rw [hwaiting] at hb
  rw [hlatch, (List.cons.inj hb).1]

end PagedMachine
