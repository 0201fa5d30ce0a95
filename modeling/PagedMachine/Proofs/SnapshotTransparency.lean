import PagedMachine.Proofs.Outdated
import PagedMachine.Proofs.Tenant

/-!
# A restored machine goes on as the one it was taken of

Two machines go `Abreast` if they differ in nothing but their caches and what no code looks at, and
the caches of both are backed by the same events. While no page is accessed that is outdated, both
find what the tables say, so what one does the other does as well (`Traced.paired`), step for step
(`Onward.abreast`). A snapshot leaves out only what may differ so (`snapshot_transparent`).
-/

set_option autoImplicit false

namespace PagedMachine

namespace Machine

/-! ## The address of the instruction before -/

/-- Code that does not look at the address of the running instruction. -/
def Forward {ε α : Type} (x : EStateM ε Machine α) : Prop :=
  ∀ m ipc, ∃ ipc', x { m with ipc } = mapState ({ · with ipc := ipc' }) (x m)

theorem pieces_forward : Pieces Forward where
  pure _ _ ipc := ⟨ipc, rfl⟩
  throw _ _ ipc := ⟨ipc, rfl⟩
  bind {_ _ _ x _} hx hf m ipc := by
    obtain ⟨ipc', h⟩ := hx m ipc
    simp only [bind_apply, h]
    cases x m with
    | ok a m₁ => exact hf a m₁ ipc'
    | error e m₁ => exact ⟨ipc', rfl⟩
  handle {_ _ _ x _} hx hf m ipc := by
    obtain ⟨ipc', h⟩ := hx m ipc
    simp only [handle_apply, h]
    cases x m with
    | ok a m₁ => exact ⟨ipc', rfl⟩
    | error e m₁ => exact hf e m₁ ipc'
  look {_ _ f} hf hP m ipc := by
    have hsame : f { m with ipc } = f m := hf m { m with ipc } ⟨rfl, rfl, rfl, rfl, rfl, rfl, rfl⟩ rfl
    obtain ⟨ipc', h⟩ := hP m m ipc
    exact ⟨ipc', by simp only [bind_apply, get_apply, hsame, h]⟩
  apart hfn m ipc := by
    obtain ⟨next, h⟩ := hfn.ipc
    exact ⟨next ipc, by simp only [modifyGet_apply, (h m).2 ipc, mapState]⟩
  sockets _ _ ipc := ⟨ipc, rfl⟩
  resolve slot vaddr access m ipc := by
    refine ⟨ipc, ?_⟩
    simp only [resolve_mapState]
    cases Memory.resolve m.regs.space slot vaddr access m.regs.user m.memory <;> rfl
  ram _ _ ipc := ⟨ipc, rfl⟩
  setDirectory i m ipc := by
    refine ⟨ipc, ?_⟩
    rw [perform_newSpace (.inl rfl), perform_newSpace (.inl rfl)]
    cases newSpace? .setDirectory m.regs m.memory.ram <;> rfl
  setPaging i m ipc := by
    refine ⟨ipc, ?_⟩
    rw [perform_newSpace (.inr rfl), perform_newSpace (.inr rfl)]
    cases newSpace? .setPaging m.regs m.memory.ram <;> rfl
  invalidatePath _ ipc := ⟨ipc, rfl⟩

/-- An instruction is fetched before its address is looked at. -/
theorem forward_executeGuarded : Forward executeGuarded := by
  intro m ipc
  by_cases hpc : m.regs.pc &&& 3 = 0
  · have hfetch : fetch { m with ipc } = fetch m := by
      rw [fetch_apply, fetch_apply, if_pos hpc, if_pos hpc]
    refine ⟨(stateOf (executeGuarded m)).ipc, ?_⟩
    have hsame : executeGuarded { m with ipc } = executeGuarded m := by
      simp only [executeGuarded, executeNext, bind_apply, hfetch]
    rw [hsame]
    cases executeGuarded m <;> rfl
  · refine ⟨ipc, ?_⟩
    have hstop (m : Machine) (h : ¬m.regs.pc &&& 3 = 0) :
        executeGuarded m = .error (.misalignedPc m.regs.pc) m := by
      simp only [executeGuarded, executeNext, bind_apply, fetch_apply, if_neg h]
    rw [hstop _ hpc, hstop { m with ipc } hpc]
    rfl

theorem forward_step : Forward step := by
  rw [step_eq]
  refine pieces_forward.bind pieces_forward.parts.tick fun ended => ?_
  cases ended with
  | some flow => exact pieces_forward.pure flow
  | none => exact forward_executeGuarded

/-! ## Two machines -/

/-- Machines that differ in their caches and in what no code looks at. Since they were `start` and
`start'` the same events happened to both, and they wrote the same to the console. -/
structure Paired (start start' : Machine) (events : List MachineEvent) (m m' : Machine) : Prop
    extends Twin m m' where
  ram : m'.memory.ram = m.memory.ram
  ipc : m'.ipc = m.ipc
  output : ∃ more, m.bridge.console.output = start.bridge.console.output ++ more ∧
    m'.bridge.console.output = start'.bridge.console.output ++ more
  network : m'.bridge.sockets.network = start'.bridge.sockets.network
  calls : m'.bridge.sockets.calls = PagedMachine.calls events ++ start'.bridge.sockets.calls

/-- Moreover the caches of both are backed by the same events. Those of `log` came before. -/
structure Abreast (log : List MachineEvent) (start start' : Machine) (events : List MachineEvent)
    (m m' : Machine) : Prop extends Paired start start' events m m' where
  paged : m.memory.ram.Paged
  aligned : m.regs.space.Aligned
  backed : m.Backed (events ++ log)
  backed' : m'.Backed (events ++ log)

section
variable {log : List MachineEvent} {start start' m m' m₁ m₁' : Machine}
  {past events : List MachineEvent}

theorem Abreast.next (h : Abreast log start start' past m m') (hk : Kept m events m₁)
    (hk' : Kept m' events m₁') (hp : Paired start start' (events ++ past) m₁ m₁') :
    Abreast log start start' (events ++ past) m₁ m₁' := by
  refine ⟨hp, hk.paged h.paged, hk.aligned h.aligned, ?_, ?_⟩
  · rw [List.append_assoc]
    exact hk.backed _ h.backed
  · rw [List.append_assoc]
    exact hk'.backed _ h.backed'

/-- The host gives to the second machine the replies that it gave to the first. -/
def Replies (start' : Machine) (events : List MachineEvent) : Prop :=
  start'.bridge.sockets.network.Gives start'.bridge.sockets.calls (calls events)

theorem replies_append {events' : List MachineEvent} :
    start'.Replies (events' ++ events) ↔ start'.Replies events ∧
      start'.bridge.sockets.network.Gives (calls events ++ start'.bridge.sockets.calls)
        (calls events') := by
  rw [Replies, calls_append, Network.gives_append, Replies]

/-- Pages that are not outdated are resolved alike. -/
theorem Abreast.access (h : Abreast log start start' past m m') (slot : Slot) (vaddr : UInt32)
    (access : Access) (hc : ¬Outdated (pageNumber vaddr) (past ++ log)) :
    answerOf (resolve slot vaddr access m') = answerOf (resolve slot vaddr access m) ∧
      Paired start start'
        (.accessed (pageNumber vaddr) (answerOf (resolve slot vaddr access m)).isOk :: past)
        (stateOf (resolve slot vaddr access m)) (stateOf (resolve slot vaddr access m')) := by
  have hr' : m'.memory.ram.Paged := by
    rw [h.ram]
    exact h.paged
  have ha' : m'.regs.space.Aligned := by
    rw [h.regs]
    exact h.aligned
  obtain ⟨-, htrust⟩ := Memory.TrustedOn.resolve slot vaddr access m.regs.user h.aligned h.paged
    (h.backed h.paged h.aligned).trusted
  obtain ⟨-, htrust'⟩ := Memory.TrustedOn.resolve slot vaddr access m'.regs.user ha' hr'
    (h.backed' hr' ha').trusted
  obtain ⟨hanswer, hram⟩ := htrust hc
  obtain ⟨hanswer', hram'⟩ := htrust' hc
  -- both answer as the tables do, and these are the same
  rw [h.regs, h.ram] at hanswer' hram'
  simp only [resolve_mapState, answerOf_mapState, stateOf_mapState, h.regs]
  exact ⟨hanswer'.trans hanswer.symm, ⟨rfl, h.timer, h.bridge⟩, hram'.trans hram.symm, h.ipc,
    h.output, h.network, h.calls⟩

theorem Abreast.apart {α : Type} {fn : Machine → α × Machine}
    (h : Abreast log start start' past m m') (hfn : Apart fn) :
    (fn m').1 = (fn m).1 ∧ Paired start start' past (fn m).2 (fn m').2 := by
  obtain ⟨hvalue, htwin⟩ := hfn.twin h.toTwin
  obtain ⟨next, hipc⟩ := hfn.ipc
  obtain ⟨more, hout, hout'⟩ := h.output
  obtain ⟨new, hnew, hnew'⟩ := hfn.output m m'
  have hmem (m : Machine) : (fn m).2.memory = m.memory := hfn.memory m m.memory ▸ rfl
  refine ⟨hvalue, htwin, ?_, ?_, ⟨more ++ new, ?_, ?_⟩, ?_, ?_⟩
  · rw [hmem, hmem, h.ram]
  · rw [(hipc m').1, (hipc m).1, h.ipc]
  · rw [hnew, hout, ByteArray.append_assoc]
  · rw [hnew', hout', ByteArray.append_assoc]
  · rw [hfn.sockets, h.network]
  · rw [hfn.sockets, h.calls]

theorem Abreast.sockets {α : Type} {fn : Sockets → α × Sockets} {asked : HostLog}
    (h : Abreast log start start' past m m') (hfn : Sockets.Steady fn)
    (hcalls : (fn m.bridge.sockets).2.calls = asked ++ m.bridge.sockets.calls)
    (hg : start'.Replies (asked.map (fun call => .asked call.1 call.2) ++ past)) :
    (fn m'.bridge.sockets).1 = (fn m.bridge.sockets).1 ∧
      (fn m'.bridge.sockets).2.calls = asked ++ m'.bridge.sockets.calls ∧
      Paired start start' (asked.map (fun call => .asked call.1 call.2) ++ past)
        { m with bridge := { m.bridge with sockets := (fn m.bridge.sockets).2 } }
        { m' with bridge := { m'.bridge with sockets := (fn m'.bridge.sockets).2 } } := by
  obtain ⟨asked', hcalls', hsame⟩ := hfn m.bridge.sockets
  obtain rfl : asked' = asked := List.append_cancel_right (hcalls'.symm.trans hcalls)
  have hgives := (replies_append.1 hg).2
  rw [calls_asked, ← h.calls, ← h.network] at hgives
  obtain ⟨hvalue, howned, hnet, hafter⟩ := hsame m'.bridge.sockets h.bridge.owned hgives
  refine ⟨hvalue, hafter, ⟨h.regs, h.timer, ?_⟩, h.ram, h.ipc, h.output, hnet.trans h.network, ?_⟩
  · exact { h.bridge with owned := howned }
  · rw [calls_append, calls_asked, List.append_assoc, ← h.calls]
    exact hafter

theorem Abreast.enter {op : Operation} (h : Abreast log start start' past m m')
    (hop : op = .setDirectory ∨ op = .setPaging) (i : Instruction) :
    answerOf (perform op i m') = answerOf (perform op i m) ∧
      Paired start start' past (stateOf (perform op i m)) (stateOf (perform op i m')) := by
  rw [perform_newSpace hop, perform_newSpace hop, h.regs, h.ram]
  cases newSpace? op m.regs m.memory.ram with
  | none => exact ⟨rfl, h.toPaired⟩
  | some space =>
    exact ⟨rfl, ⟨rfl, h.timer, h.bridge⟩, h.ram, h.ipc, h.output, h.network, h.calls⟩

/-! ## Code that both run -/

/-- Code does the same to both, unless it accesses a page that is outdated. -/
theorem Traced.paired {ε α : Type} {x : EStateM ε Machine α} (h : Traced x m events)
    (hm : Abreast log start start' past m m') (hc : Careful (past ++ log) events)
    (hg : start'.Replies (events ++ past)) :
    Traced x m' events ∧ answerOf (x m') = answerOf (x m) ∧
      Paired start start' (events ++ past) (stateOf (x m)) (stateOf (x m')) := by
  induction h generalizing past m' with
  | pure a m => exact ⟨.pure a m', rfl, hm.toPaired⟩
  | throw e m => exact ⟨.throw e m', rfl, hm.toPaired⟩
  | bind h hr h' ih ih' =>
    rw [careful_append] at hc
    rw [List.append_assoc] at hg
    obtain ⟨ht, hanswer, hp⟩ := ih hm hc.1 (replies_append.1 hg).1
    have hm₁ := hm.next h.kept ht.kept hp
    rw [hr] at hanswer hm₁
    have hr' := eq_ok_of_answerOf hanswer
    obtain ⟨ht', hanswer', hp'⟩ := ih' hm₁ (by rw [List.append_assoc]; exact hc.2) hg
    rw [bind_apply, bind_apply, hr, hr', List.append_assoc]
    exact ⟨ht.bind hr' ht', hanswer', hp'⟩
  | stop h hr ih =>
    obtain ⟨ht, hanswer, hp⟩ := ih hm hc hg
    rw [hr] at hanswer hp
    have hr' := eq_error_of_answerOf hanswer
    rw [bind_apply, bind_apply, hr, hr']
    exact ⟨ht.stop hr', rfl, hp⟩
  | handled h hr h' ih ih' =>
    rw [careful_append] at hc
    rw [List.append_assoc] at hg
    obtain ⟨ht, hanswer, hp⟩ := ih hm hc.1 (replies_append.1 hg).1
    have hm₁ := hm.next h.kept ht.kept hp
    rw [hr] at hanswer hm₁
    have hr' := eq_error_of_answerOf hanswer
    obtain ⟨ht', hanswer', hp'⟩ := ih' hm₁ (by rw [List.append_assoc]; exact hc.2) hg
    rw [handle_apply, handle_apply, hr, hr', List.append_assoc]
    exact ⟨ht.handled hr' ht', hanswer', hp'⟩
  | unhandled h hr ih =>
    obtain ⟨ht, hanswer, hp⟩ := ih hm hc hg
    rw [hr] at hanswer hp
    have hr' := eq_ok_of_answerOf hanswer
    rw [handle_apply, handle_apply, hr, hr']
    exact ⟨ht.unhandled hr', rfl, hp⟩
  | look hf h ih =>
    obtain ⟨ht, hanswer, hp⟩ := ih hm hc hg
    have hsame := hf _ m' hm.toTwin hm.ram hm.ipc
    rw [← hsame] at ht
    refine ⟨.look hf ht, ?_, ?_⟩ <;> rw [bind_apply, bind_apply, get_apply, get_apply] <;>
      dsimp only <;> rw [hsame]
    · exact hanswer
    · exact hp
  | apart m hfn =>
    obtain ⟨hvalue, hp⟩ := hm.apart hfn
    exact ⟨.apart m' hfn, congrArg Except.ok hvalue, hp⟩
  | sockets hfn hcalls =>
    obtain ⟨hvalue, hcalls', hp⟩ := hm.sockets hfn hcalls hg
    exact ⟨.sockets hfn hcalls', congrArg Except.ok hvalue, hp⟩
  | access slot vaddr access m =>
    obtain ⟨hanswer, hp⟩ := hm.access slot vaddr access hc.2
    exact ⟨hanswer ▸ .access slot vaddr access m', hanswer, hp⟩
  | @write _ fn m hsize =>
    refine ⟨?_, rfl, ⟨hm.regs, hm.timer, hm.bridge⟩, ?_, hm.ipc, hm.output, hm.network, hm.calls⟩
    · rw [← hm.regs, ← hm.ram]
      exact .write m' hsize
    · exact congrArg fn hm.ram
  | enter i m hop =>
    obtain ⟨hanswer, hp⟩ := hm.enter hop i
    refine ⟨?_, hanswer, ?_⟩
    · rw [← hm.regs, ← hm.ram]
      exact .enter i m' hop
    · split
      · exact { hp with calls := hp.calls }
      · exact hp
  | invalidatePath m =>
    exact ⟨.invalidatePath m', rfl, ⟨hm.regs, hm.timer, hm.bridge⟩, hm.ram, hm.ipc, hm.output,
      hm.network, hm.calls⟩

/-! ## Steps -/

/-- Between two steps the machines may differ in the address of the instruction that ran last. -/
theorem Traced.abreast_step (h : Traced step m events)
    (hm : Abreast log start start' past m { m' with ipc := m.ipc })
    (hc : Careful (past ++ log) events) (hg : start'.Replies (events ++ past)) :
    answerOf (step m') = answerOf (step m) ∧
      Abreast log start start' (events ++ past) (stateOf (step m))
        { stateOf (step m') with ipc := (stateOf (step m)).ipc } := by
  obtain ⟨ht, hanswer, hp⟩ := h.paired hm hc hg
  have hm₁ := hm.next h.kept ht.kept hp
  obtain ⟨ipc, hstep⟩ := forward_step m' m.ipc
  rw [hstep, answerOf_mapState] at hanswer
  rw [hstep, stateOf_mapState] at hm₁
  have hipc : ipc = (stateOf (step m)).ipc := hm₁.ipc
  exact ⟨hanswer, hipc ▸ hm₁⟩

theorem Onward.abreast {n : Nat} (h : m.Onward n events)
    (hm : Abreast log start start' [] m { m' with ipc := m.ipc }) (hc : Careful log events)
    (hg : start'.Replies events) :
    m'.answers n = m.answers n ∧
      Abreast log start start' events (m.after n) { m'.after n with ipc := (m.after n).ipc } := by
  induction h with
  | none => exact ⟨rfl, hm⟩
  | step h ht ih =>
    rw [careful_append] at hc
    obtain ⟨hanswers, hm⟩ := ih hc.1 (replies_append.1 hg).1
    obtain ⟨hanswer, hm⟩ := ht.abreast_step hm hc.2 hg
    exact ⟨by rw [answers, answers, hanswers, hanswer], hm⟩

end

end Machine

/-! ## Snapshots -/

/-- The consoles have the same to come and the same byte ends the emulation, and no sockets are open. -/
structure Emulator.SharesHost (e e' : Emulator) : Prop where
  pending : e'.machine.bridge.console.pending = e.machine.bridge.console.pending
  supply : e'.machine.bridge.console.supply = e.machine.bridge.console.supply
  escape : e'.machine.bridge.escape = e.machine.bridge.escape
  owned : e.machine.bridge.sockets.owned = []
  owned' : e'.machine.bridge.sockets.owned = []

/-! ## A snapshot of a machine that halts twice -/

namespace Machine

/-- A step of a machine without a page cache that finds a `halt`. -/
theorem halts {ram : Ram} {regs : Registers} {tlb tlb' : Tlb} {ipc ir pa : UInt32}
    (hdue : (regs.cycle + 1) % pollInterval.toUInt64 ≠ 0) (halign : regs.pc &&& 3 = 0)
    (hr : Memory.resolve regs.space .code regs.pc .fetch regs.user ⟨ram, tlb, .uncached⟩ =
      .ok pa ⟨ram, tlb', .uncached⟩) (hword : ram.read32 pa = 0) :
    step (following ram regs tlb ipc ir) = .ok (.halt regs.a) (following ram
        { regs with pc := regs.pc + 4, cycle := regs.cycle + 1 } tlb' regs.pc 0) ∧
      Traced step (following ram regs tlb ipc ir) [.accessed (pageNumber regs.pc) true] := by
  have hop : (Instruction.mk 0).operation? = some .halt := by decide +kernel
  refine ⟨step_of_halt (m := following ram regs tlb ipc ir) hdue halign hr hword, ?_⟩
  exact traced_step_of_resolved (m := following ram regs tlb ipc ir) hdue halign hr hword hop
    (fun _ => rfl) rfl ((traced_getRegs _).then rfl (.pure _ _))

/-- The kernel at `pc`, with paging. -/
def paging (pc : UInt32) (cycle : UInt64) : Registers :=
  { pc, cycle, space := { paging := true, directory := some 0 } }

/-- The page with the program is walked to, where no page is cached. -/
theorem halts_walked {ram : Ram} (h : ram.Hosts 0) (epoch misses flushes : Nat) :
    step (following ram (paging 0x2020 0) (.emptied epoch 0 misses flushes) 0x2020 0) =
        .ok (.halt 0) (following ram (paging 0x2024 1)
          (.holding 2 program epoch 0 (misses + 1) flushes) 0x2020 0) ∧
      Traced step (following ram (paging 0x2020 0) (.emptied epoch 0 misses flushes) 0x2020 0)
        [.accessed (pageNumber 0x2020) true] := by
  have hpde : ram.directoryEntry 0 0x2020 = ⟨0x1067⟩ :=
    congrArg PageEntry.mk (h.word 0 (by decide) (by decide))
  have hpte : ram.tableEntry 0 0x2020 = ⟨0x2067⟩ := by
    rw [Ram.tableEntry, hpde]
    exact congrArg PageEntry.mk (h.word 0x1008 (by decide) (by decide))
  have hwalk : walk (paging 0x2020 0).space 0x2020 .fetch false ram = .ok program ram := by
    rw [walk_of_marked rfl rfl hpde hpte (by decide) (by rw [h.size_eq]; decide) (by decide)
      (by rw [h.size_eq]; decide) (by decide) (by decide)]
    rfl
  have hresolve : Memory.resolve (paging 0x2020 0).space .code 0x2020 .fetch false
        ⟨ram, .emptied epoch 0 misses flushes, .uncached⟩ =
      .ok 0x2020 ⟨ram, .holding 2 program epoch 0 (misses + 1) flushes, .uncached⟩ :=
    Memory.resolve_emptied Memory.missed_uncached hwalk
  exact @halts ram (paging 0x2020 0) _ _ _ _ _ (by decide) (by decide) hresolve
    (h.word 0x2020 (by decide) (by decide))

/-- After that it is cached. -/
theorem halts_held {ram : Ram} (h : ram.Hosts 0) (epoch misses flushes : Nat) :
    Traced step (following ram (paging 0x2024 1) (.holding 2 program epoch 0 misses flushes) 0x2020 0)
      [.accessed (pageNumber 0x2024) true] := by
  have hresolve : Memory.resolve (paging 0x2024 1).space .code 0x2024 .fetch false
        ⟨ram, .holding 2 program epoch 0 misses flushes, .uncached⟩ =
      .ok 0x2024 ⟨ram, .holding 2 program epoch 1 misses flushes, .uncached⟩ :=
    Memory.resolve_held Memory.missed_uncached (by decide) (grants_program _)
  exact (@halts ram (paging 0x2024 1) _ _ _ _ _ (by decide) (by decide) hresolve
    (h.word 0x2024 (by decide) (by decide))).2

end Machine

/-! ## Main result -/

/-- A snapshot that is restored elsewhere goes on as the machine it was taken of. Any number of steps
has a trace, and while that accesses no page that is outdated, the steps answer the same, and after them
registers, timer, latch and memory are equal, and the same was written to the console since. -/
theorem snapshot_transparent {e e' : Emulator} {log : List MachineEvent}
    (hpast : e.machine.Past log) (hpaged : e.machine.memory.ram.Paged)
    (haligned : e.machine.regs.space.Aligned) (hhost : e.SharesHost e') (n : Nat) :
    let restored := (e'.restore e.snapshot).2.machine
    (e'.restore e.snapshot).1 = .ok () ∧ (∃ events, e.machine.Onward n events) ∧
      ∀ events, e.machine.Onward n events → Careful log events → e'.machine.Replies events →
        restored.answers n = e.machine.answers n ∧
        (restored.after n).regs = (e.machine.after n).regs ∧
        (restored.after n).timer = (e.machine.after n).timer ∧
        (restored.after n).bridge.latch = (e.machine.after n).bridge.latch ∧
        (restored.after n).memory.ram = (e.machine.after n).memory.ram ∧
        ∃ more,
          (e.machine.after n).bridge.console.output = e.machine.bridge.console.output ++ more ∧
          (restored.after n).bridge.console.output = e'.machine.bridge.console.output ++ more := by
  intro restored
  refine ⟨rfl, e.machine.exists_onward n, fun events hevents hcareful hreplies => ?_⟩
  have hstart : Machine.Abreast log e.machine e'.machine [] e.machine
      { restored with ipc := e.machine.ipc } := by
    refine ⟨⟨⟨rfl, rfl, rfl, hhost.escape, hhost.pending, hhost.supply, ?_⟩, rfl, rfl, ⟨.empty, ?_, ?_⟩,
      rfl, rfl⟩, hpaged, haligned, hpast.backed, ?_⟩
    · exact hhost.owned'.trans hhost.owned.symm
    · rw [ByteArray.append_empty]
    · exact ByteArray.append_empty.symm
    · exact fun _ _ =>
        .of_empty ((Memory.Remembers.flush _ e'.machine.memory).mapRam fun _ => e.machine.memory.ram)
  obtain ⟨hanswers, h⟩ := hevents.abreast hstart hcareful hreplies
  exact ⟨hanswers, h.regs, h.timer, h.bridge.latch, h.ram, h.output⟩

/-- The machine halted in a session, went on in the same place with empty caches, and was restored
elsewhere after one step, when the page with the program was cached. -/
theorem snapshot_transparent_halt :
    ∃ (e e' : Emulator) (log events : List MachineEvent),
      (e.machine.Past log ∧ e.machine.memory.ram.Paged ∧ e.machine.regs.space.Aligned ∧
        e.SharesHost e' ∧ e.machine.Onward 1 events ∧ Careful log events ∧
        e'.machine.Replies events) ∧
      let restored := (e'.restore e.snapshot).2.machine
      (e'.restore e.snapshot).1 = .ok () ∧ (∃ events, e.machine.Onward 1 events) ∧
        restored.answers 1 = e.machine.answers 1 ∧
        (restored.after 1).regs = (e.machine.after 1).regs ∧
        (restored.after 1).timer = (e.machine.after 1).timer ∧
        (restored.after 1).bridge.latch = (e.machine.after 1).bridge.latch ∧
        (restored.after 1).memory.ram = (e.machine.after 1).memory.ram ∧
        ∃ more,
          (e.machine.after 1).bridge.console.output = e.machine.bridge.console.output ++ more ∧
          (restored.after 1).bridge.console.output = e'.machine.bridge.console.output ++ more := by
  obtain ⟨ram, h⟩ : ∃ ram, Ram.Hosts 0 ram := ⟨_, Ram.hosts_tenant 0 0⟩
  -- the session: the machine is put to the program and halts
  let e₀ : Emulator := { machine := .make ram false 1 {}, config := {} }
  let ops : List SessionOp := [.resume (Machine.paging 0x2020 0) {}, .step]
  have hsession : (e₀.session ops).2 =
      ⟨.following ram (Machine.paging 0x2024 1) (.holding 2 Machine.program 1 0 1 1) 0x2020 0, {}⟩ := by
    refine (Emulator.session_cons rfl _).trans ?_
    exact Emulator.session_cons (Emulator.serve_step (Machine.halts_walked h 1 0 1).1) []
  obtain ⟨log, hpast⟩ : ∃ log, (e₀.session ops).2.machine.Past log :=
    Emulator.Dated.session (by simp [ops, SessionOp.Orderly]) e₀ ⟨[], .made ram false 1 {}⟩
  -- it goes on with empty caches, and its snapshot is taken after one step
  let start : Machine := .following ram (Machine.paging 0x2020 0) (.emptied 2 0 1 2) 0x2020 0
  have hstart : start.Past (.emptied :: log) := by
    rw [hsession] at hpast
    exact hpast.emptied rfl
  obtain ⟨hstep, hfirst⟩ := Machine.halts_walked h 2 1 2
  let e : Emulator := { machine := stateOf (Machine.step start), config := {} }
  let e' : Emulator := { machine := .make (.zeroed 4096) true 3 {}, config := {} }
  have hstate : e.machine =
      .following ram (Machine.paging 0x2024 1) (.holding 2 Machine.program 2 0 2 2) 0x2020 0 :=
    congrArg stateOf hstep
  have hpaged : e.machine.memory.ram.Paged := by
    rw [hstate]
    exact h.paged
  have haligned : e.machine.regs.space.Aligned := by
    rw [hstate]
    exact fun _ hd => Option.some.inj hd ▸ rfl
  have hhost : e.SharesHost e' := by
    refine ⟨?_, ?_, ?_, ?_, rfl⟩ <;> rw [hstate] <;> rfl
  have hevents : e.machine.Onward 1 [.accessed (pageNumber 0x2024) true] := by
    rw [hstate]
    exact Machine.Onward.step .none (Machine.halts_held h 2 2 2)
  have hcareful : Careful ([.accessed (pageNumber 0x2020) true] ++ .emptied :: log)
      [.accessed (pageNumber 0x2024) true] := ⟨trivial, id⟩
  obtain ⟨hrestored, htraced, hsame⟩ := snapshot_transparent (hstart.ran hfirst) hpaged haligned hhost 1
  exact ⟨e, e', _, _,
    ⟨hstart.ran hfirst, hpaged, haligned, hhost, hevents, hcareful, trivial⟩,
    hrestored, htraced, hsame _ hevents hcareful trivial⟩

end PagedMachine
