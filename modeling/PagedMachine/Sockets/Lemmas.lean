import PagedMachine.Sockets

/-!
# What the host is asked

A call of the socket table is `Steady` if all that it does is decided by the open descriptors and the
host's replies. Two hosts that give the same replies are then asked the same, whatever they were asked
before.
-/

set_option autoImplicit false

namespace PagedMachine

/-- Calls of the host and its replies, latest first. -/
abbrev HostLog := List (HostCall × HostReply)

/-- Whether the host, asked after `past`, gives these replies to these calls. -/
def Network.Gives (n : Network) (past : HostLog) : HostLog → Prop
  | [] => True
  | (call, reply) :: asked => n.Gives past asked ∧ n.answer (asked ++ past) call = reply

theorem Network.gives_append {n : Network} {past asked asked' : HostLog} :
    n.Gives past (asked' ++ asked) ↔ n.Gives past asked ∧ n.Gives (asked ++ past) asked' := by
  induction asked' with
  | nil => simp [Gives]
  | cons call asked' ih =>
    simp only [List.cons_append, Gives, ih, List.append_assoc, and_assoc]

namespace Sockets

def Steady {α : Type} (fn : Sockets → α × Sockets) : Prop :=
  ∀ s, ∃ asked, (fn s).2.calls = asked ++ s.calls ∧
    ∀ s' : Sockets, s'.owned = s.owned → s'.network.Gives s'.calls asked →
      (fn s').1 = (fn s).1 ∧ (fn s').2.owned = (fn s).2.owned ∧
        (fn s').2.network = s'.network ∧ (fn s').2.calls = asked ++ s'.calls

section
variable {α β : Type}

theorem steady_pure (a : α) : Steady fun s => (a, s) :=
  fun _ => ⟨[], rfl, fun _ ho _ => ⟨rfl, ho, rfl, rfl⟩⟩

theorem Steady.bind {fn : Sockets → α × Sockets} {next : α → Sockets → β × Sockets}
    (h : Steady fn) (hnext : ∀ a, Steady (next a)) :
    Steady fun s => next (fn s).1 (fn s).2 := by
  intro s
  obtain ⟨asked, hcalls, hsame⟩ := h s
  obtain ⟨asked', hcalls', hsame'⟩ := hnext (fn s).1 (fn s).2
  refine ⟨asked' ++ asked, by rw [hcalls', hcalls, List.append_assoc], fun s' ho hgives => ?_⟩
  obtain ⟨hgives, hgives'⟩ := Network.gives_append.1 hgives
  obtain ⟨hvalue, ho₁, hn₁, hc₁⟩ := hsame s' ho hgives
  rw [← hc₁, ← hn₁] at hgives'
  obtain ⟨hvalue', ho₂, hn₂, hc₂⟩ := hsame' _ ho₁ hgives'
  dsimp only
  rw [hvalue]
  exact ⟨hvalue', ho₂, hn₂.trans hn₁, by rw [hc₂, hc₁, List.append_assoc]⟩

/-- What is done with the result may depend on it. -/
theorem Steady.map {fn : Sockets → α × Sockets} (h : Steady fn) (g : α → β) :
    Steady fun s => (g (fn s).1, (fn s).2) :=
  h.bind fun a => steady_pure (g a)

theorem steady_ask (call : HostCall) : Steady fun s => s.ask call := by
  refine fun s => ⟨[(call, s.network.answer s.calls call)], rfl, fun s' ho hgives => ?_⟩
  have hreply : s'.network.answer s'.calls call = s.network.answer s.calls call := hgives.2
  simp only [ask, hreply]
  exact ⟨trivial, ho, trivial, rfl⟩

/-- The open descriptors may be looked at and changed. -/
theorem steady_owned (value : List Int32 → α) (change : List Int32 → List Int32) :
    Steady fun s => (value s.owned, { s with owned := change s.owned }) := by
  refine fun s => ⟨[], rfl, fun s' ho _ => ?_⟩
  dsimp only
  rw [ho]
  exact ⟨rfl, rfl, rfl, rfl⟩

end

/-! ## The calls of the guest -/

theorem steady_owned? (fd : UInt32) : Steady fun s => (s.owned? fd, s) :=
  steady_owned (fun owned => if owned.contains fd.toInt32 then some fd.toInt32 else none) id

theorem steady_own (fd : Int32) : Steady fun s => (fd, s.own fd) := by
  by_cases h : fd ≥ 0
  · simp only [own, if_pos h]
    exact steady_owned (fun _ => fd) (·.insert fd)
  · simp only [own, if_neg h]
    exact steady_pure fd

/-- Code that is put together from two parts. -/
theorem Steady.of_eq {α : Type} {fn fn' : Sockets → α × Sockets} (h : Steady fn')
    (heq : ∀ s, fn s = fn' s) : Steady fn := by
  obtain rfl : fn = fn' := funext heq
  exact h

theorem steady_onOwned (fd : UInt32) (call : Int32 → HostCall) :
    Steady fun s => s.onOwned fd call := by
  have hcall (o : Option Int32) : Steady fun s =>
      o.elim (-1, s) fun fd => ((s.ask (call fd)).1.result, (s.ask (call fd)).2) := by
    cases o with
    | none => exact steady_pure _
    | some fd => exact (steady_ask (call fd)).map (·.result)
  refine ((steady_owned? fd).bind hcall).of_eq fun s => ?_
  unfold onOwned
  cases s.owned? fd <;> rfl

theorem steady_socket (family type protocol : UInt32) :
    Steady fun s => s.socket family type protocol := by
  unfold socket
  split
  · exact ((steady_ask .socket).bind fun reply => steady_own reply.result).of_eq fun s => rfl
  · exact steady_pure _

theorem steady_close (fd : UInt32) : Steady fun s => s.close fd := by
  have hcall (o : Option Int32) : Steady fun s =>
      o.elim ((-1 : Int32), s) fun fd =>
        let r := { s with owned := s.owned.erase fd }.ask (.close fd)
        (r.1.result, r.2) := by
    cases o with
    | none => exact steady_pure _
    | some fd =>
      exact (steady_owned (fun _ => ()) (·.erase fd)).bind fun _ =>
        (steady_ask (.close fd)).map (·.result)
  refine ((steady_owned? fd).bind hcall).of_eq fun s => ?_
  unfold close
  cases s.owned? fd <;> rfl

theorem steady_readable (fd : UInt32) : Steady fun s => s.readable fd :=
  ((steady_onOwned fd .readable).map fun r => if r < 0 then -1 else if r = 0 then 0 else 1).of_eq
    fun _ => rfl

/-- Asking for input first, and going on if there is some; `shape` puts the result in order. -/
theorem steady_ready {α γ : Type} {shape : γ → α × Sockets} {ready idle : Sockets → γ} (fd : UInt32)
    (hready : Steady fun s => shape (ready s)) (hidle : Steady fun s => shape (idle s)) :
    Steady fun s => shape (match s.readable fd with
      | (1, s) => ready s
      | (_, s) => idle s) := by
  have hcall (r : Int32) : Steady fun s => if r = 1 then shape (ready s) else shape (idle s) := by
    split
    · exact hready
    · exact hidle
  refine ((steady_readable fd).bind hcall).of_eq fun s => ?_
  split
  · rename_i hr
    rw [hr]
    rfl
  · rename_i hne hr
    rw [hr]
    exact (if_neg hne).symm

theorem steady_accept (fd : UInt32) : Steady fun s => s.accept fd := by
  have hready : Steady fun s => id ((s.onOwned fd .accept).1,
      (s.onOwned fd .accept).2.own (s.onOwned fd .accept).1) :=
    (steady_onOwned fd .accept).bind steady_own
  exact steady_ready fd hready (steady_pure (-1))

theorem steady_receive (fd : UInt32) (len : Nat) :
    Steady fun s => match s.receive fd len with | (n, data, s) => ((n, data), s) := by
  refine @steady_ready _ _ (fun r : Int32 × ByteArray × Sockets => ((r.1, r.2.1), r.2.2)) _ _ fd
    (((steady_ask (.receive fd.toInt32 (min len maxTransfer.toNat))).map fun reply =>
      let data := reply.data.extract 0 (min len maxTransfer.toNat)
      if reply.result < 0 then (reply.result, ByteArray.empty)
      else (Int32.ofNat data.size, data)).of_eq fun s => ?_) (steady_pure (-1, ByteArray.empty))
  dsimp only
  split <;> rfl

theorem steady_send (fd : UInt32) (data : ByteArray) : Steady fun s => s.send fd data :=
  steady_onOwned fd (.send · (data.extract 0 maxTransfer.toNat))

end Sockets

end PagedMachine
