import Mathlib.Data.List.Nodup
import PagedMachine.Sockets.Lemmas

/-!
# Descriptors of the host

A session is a sequence of the guest's requests to the socket table, which name descriptors by
arbitrary words. What a request does is one of a few cases (`Sockets.Served`). A descriptor is open if
it was handed out and not closed since (`Open`): the table has the open descriptors, only these reach
the host, and each is closed there at most once until it is handed out again (`descriptors_confined`).
-/

set_option autoImplicit false

namespace PagedMachine

/-! ## Requests -/

inductive SocketRequest
  | socket (family type protocol : UInt32)
  | close (fd : UInt32)
  | connect (fd peer host : UInt32)
  | bind (fd peer host : UInt32)
  | listen (fd backlog : UInt32)
  | readable (fd : UInt32)
  | accept (fd : UInt32)
  | receive (fd : UInt32) (len : Nat)
  | send (fd : UInt32) (data : ByteArray)

namespace SocketRequest

/-- The word that names the descriptor a request is about. -/
def fd? : SocketRequest → Option UInt32
  | socket .. => none
  | close fd | connect fd .. | bind fd .. | listen fd _ | readable fd | accept fd | receive fd _
  | send fd _ => some fd

/-- Whether the answer may be a new descriptor. -/
def opens : SocketRequest → Bool
  | socket .. | accept _ => true
  | _ => false

end SocketRequest

/-- A request that was served. -/
structure Exchange where
  request : SocketRequest
  result : Int32
  /-- The calls that reached the host, latest first. -/
  reached : List HostCall

namespace Exchange

/-- The answer is a descriptor. -/
def HandsOut (x : Exchange) (fd : Int32) : Prop :=
  x.request.opens = true ∧ x.result = fd ∧ 0 ≤ fd

def Closes (x : Exchange) (fd : Int32) : Prop := ∃ w, x.request = .close w ∧ w.toInt32 = fd

end Exchange

namespace HostCall

/-- The descriptor that the host is asked about. -/
def fd? : HostCall → Option Int32
  | socket => none
  | close fd | connect fd .. | bind fd .. | listen fd _ | readable fd | accept fd | receive fd _
  | send fd _ => some fd

def closes (fd : Int32) : HostCall → Bool
  | close fd' => fd' = fd
  | _ => false

end HostCall

namespace Sockets

/-- What a request that does not reach the host is answered. -/
def refusal : HostReply := ⟨-1, ByteArray.empty⟩

/-- Serves a request. Only one of them is answered with bytes. -/
def serve (s : Sockets) (r : SocketRequest) : HostReply × Sockets :=
  let word (answer : Int32 × Sockets) : HostReply × Sockets :=
    (⟨answer.1, ByteArray.empty⟩, answer.2)
  match r with
  | .socket family type protocol => word (s.socket family type protocol)
  | .close fd => word (s.close fd)
  | .connect fd peer host => word (s.connect fd peer host)
  | .bind fd peer host => word (s.bind fd peer host)
  | .listen fd backlog => word (s.listen fd backlog)
  | .readable fd => word (s.readable fd)
  | .accept fd => word (s.accept fd)
  | .receive fd len =>
    match s.receive fd len with
    | (n, data, s) => (⟨n, data⟩, s)
  | .send fd data => word (s.send fd data)

def exchange (s : Sockets) (r : SocketRequest) : Exchange where
  request := r
  result := (s.serve r).1.result
  reached :=
    ((s.serve r).2.calls.take ((s.serve r).2.calls.length - s.calls.length)).map Prod.fst

/-- What a request comes to, with the open descriptors after it. -/
inductive Served (s : Sockets) : Exchange → List Int32 → Prop
  | refused {r : SocketRequest} : (∀ w, r.fd? = some w → w.toInt32 ∉ s.owned) →
      Served s ⟨r, -1, []⟩ s.owned
  | opened (family type protocol : UInt32) (result : Int32) :
      Served s ⟨.socket family type protocol, result, [.socket]⟩ (s.own result).owned
  | closed {w : UInt32} (result : Int32) : w.toInt32 ∈ s.owned →
      Served s ⟨.close w, result, [.close w.toInt32]⟩ (s.owned.erase w.toInt32)
  /-- The host is asked about the descriptor, and the table stays as it is. -/
  | asked {r : SocketRequest} {w : UInt32} {result : Int32} {calls : List HostCall} :
      r.fd? = some w → w.toInt32 ∈ s.owned → (∀ w, r ≠ .close w) →
      (r.opens = true → result < 0) →
      (∀ c ∈ calls, c.fd? = some w.toInt32 ∧ ∀ fd, c.closes fd = false) →
      Served s ⟨r, result, calls⟩ s.owned
  | accepted {w : UInt32} (result : Int32) : w.toInt32 ∈ s.owned →
      Served s ⟨.accept w, result, [.accept w.toInt32, .readable w.toInt32]⟩ (s.own result).owned

section
variable {s : Sockets} {r : SocketRequest} {w : UInt32} {call : Int32 → HostCall}

/-! ## Descriptors that are not open -/

theorem owned?_of_mem (h : w.toInt32 ∈ s.owned) : s.owned? w = some w.toInt32 :=
  if_pos (List.contains_iff_mem.2 h)

theorem owned?_of_not_mem (h : w.toInt32 ∉ s.owned) : s.owned? w = none :=
  if_neg fun hmem => h (List.contains_iff_mem.1 hmem)

theorem onOwned_of_mem (h : w.toInt32 ∈ s.owned) :
    s.onOwned w call = ((s.ask (call w.toInt32)).1.result, (s.ask (call w.toInt32)).2) := by
  rw [onOwned, owned?_of_mem h]

theorem onOwned_of_not_mem (h : w.toInt32 ∉ s.owned) : s.onOwned w call = (-1, s) := by
  rw [onOwned, owned?_of_not_mem h]

theorem readable_of_not_mem (h : w.toInt32 ∉ s.owned) : s.readable w = (-1, s) := by
  rw [readable, onOwned_of_not_mem h]
  rfl

/-- A request on a descriptor that is not open goes no further. -/
theorem serve_of_not_mem (hfd : r.fd? = some w) (h : w.toInt32 ∉ s.owned) :
    s.serve r = (refusal, s) := by
  cases r with
  | socket family type protocol => cases hfd
  | close fd =>
    obtain rfl := Option.some.inj hfd
    rw [serve, close, owned?_of_not_mem h]
    rfl
  | connect fd peer host | bind fd peer host | listen fd backlog | send fd data =>
    obtain rfl := Option.some.inj hfd
    simp only [serve, connect, bind, listen, send, onOwned_of_not_mem h, refusal]
  | readable fd =>
    obtain rfl := Option.some.inj hfd
    rw [serve, readable_of_not_mem h]
    rfl
  | accept fd =>
    obtain rfl := Option.some.inj hfd
    rw [serve, accept, readable_of_not_mem h]
    rfl
  | receive fd len =>
    obtain rfl := Option.some.inj hfd
    rw [serve, receive, readable_of_not_mem h]
    rfl

/-- No socket of another kind is opened. -/
theorem serve_socket_of_other {family type protocol : UInt32}
    (h : ¬(family = 2 ∧ type = 1 ∧ (protocol = 0 ∨ protocol = 6))) :
    s.serve (.socket family type protocol) = (refusal, s) := by
  rw [serve, socket, if_neg h]
  rfl

/-! ## One request -/

theorem owned_own (s : Sockets) (fd : Int32) :
    (s.own fd).owned = if fd ≥ 0 then s.owned.insert fd else s.owned := by
  rw [own]
  split <;> rfl

theorem calls_own (s : Sockets) (fd : Int32) : (s.own fd).calls = s.calls := by
  rw [own]
  split <;> rfl

/-- What the host says of input on an open descriptor. -/
theorem readable_of_mem (h : w.toInt32 ∈ s.owned) :
    ∃ ready, s.readable w = (ready, (s.ask (.readable w.toInt32)).2) := by
  rw [readable, onOwned_of_mem h]
  exact ⟨_, rfl⟩

/-- A connection is accepted if one waits. -/
theorem accept_of_mem (h : w.toInt32 ∈ s.owned) :
    let polled := (s.ask (.readable w.toInt32)).2
    let accepted := polled.ask (.accept w.toInt32)
    s.accept w = (-1, polled) ∨
      s.accept w = (accepted.1.result, accepted.2.own accepted.1.result) := by
  intro polled accepted
  obtain ⟨ready, hready⟩ := readable_of_mem h
  rw [accept, hready]
  split
  · rename_i hwaits
    obtain rfl : polled = _ := (Prod.mk.inj hwaits).2
    right
    rw [onOwned_of_mem (show w.toInt32 ∈ polled.owned from h)]
  · rename_i hidle
    obtain rfl : polled = _ := (Prod.mk.inj hidle).2
    exact .inl rfl

/-- Bytes are read if there are some, at most as many as one transfer moves. -/
theorem receive_of_mem (h : w.toInt32 ∈ s.owned) (len : Nat) :
    let polled := (s.ask (.readable w.toInt32)).2
    s.receive w len = (-1, ByteArray.empty, polled) ∨ ∃ n data, s.receive w len =
      (n, data, (polled.ask (.receive w.toInt32 (min len maxTransfer.toNat))).2) := by
  intro polled
  obtain ⟨ready, hready⟩ := readable_of_mem h
  rw [receive, hready]
  split
  · rename_i hwaits
    obtain rfl : polled = _ := (Prod.mk.inj hwaits).2
    right
    dsimp only
    split
    · exact ⟨_, _, rfl⟩
    · exact ⟨_, _, rfl⟩
  · rename_i hidle
    obtain rfl : polled = _ := (Prod.mk.inj hidle).2
    exact .inl rfl

/-- What a request asks the host and leaves in the table is one of the cases. -/
def Answers (s : Sockets) (r : SocketRequest) : Prop :=
  ∃ asked : HostLog, (s.serve r).2.calls = asked ++ s.calls ∧
    s.Served ⟨r, (s.serve r).1.result, asked.map Prod.fst⟩ (s.serve r).2.owned

theorem answers_of_not_mem (hfd : r.fd? = some w) (h : w.toInt32 ∉ s.owned) : s.Answers r := by
  unfold Answers
  rw [serve_of_not_mem hfd h]
  refine ⟨[], rfl, .refused fun w' hfd' => ?_⟩
  rwa [← Option.some.inj (hfd.symm.trans hfd')]

/-- A request may ask the host about its descriptor and leave it at that. -/
theorem answers_of_asked (asked : HostLog) {answer : HostReply} {s' : Sockets}
    (hserve : s.serve r = (answer, s')) (hcalls : s'.calls = asked ++ s.calls)
    (howned : s'.owned = s.owned) (hfd : r.fd? = some w) (h : w.toInt32 ∈ s.owned)
    (hcloses : ∀ w, r ≠ .close w) (hopens : r.opens = true → answer.result < 0)
    (hasked : ∀ c ∈ asked.map Prod.fst, c.fd? = some w.toInt32 ∧ ∀ fd, c.closes fd = false) :
    s.Answers r := by
  unfold Answers
  rw [hserve]
  refine ⟨asked, hcalls, ?_⟩
  rw [howned]
  exact .asked hfd h hcloses hopens hasked

theorem answers_of_onOwned (call : Int32 → HostCall) {result : Int32}
    (hserve : s.serve r = (⟨result, ByteArray.empty⟩, (s.onOwned w call).2))
    (hfd : r.fd? = some w) (h : w.toInt32 ∈ s.owned) (hcloses : ∀ w, r ≠ .close w)
    (hopens : r.opens = false) (hcall : (call w.toInt32).fd? = some w.toInt32)
    (hclose : ∀ fd, (call w.toInt32).closes fd = false) : s.Answers r := by
  rw [onOwned_of_mem h] at hserve
  refine answers_of_asked [(call w.toInt32, (s.ask (call w.toInt32)).1)] hserve rfl rfl hfd h hcloses
    (fun ho => absurd (ho.symm.trans hopens) nofun) fun c hc => ?_
  obtain rfl := List.mem_singleton.1 hc
  exact ⟨hcall, hclose⟩

theorem answers_socket (s : Sockets) (family type protocol : UInt32) :
    s.Answers (.socket family type protocol) := by
  unfold Answers
  by_cases hkind : family = 2 ∧ type = 1 ∧ (protocol = 0 ∨ protocol = 6)
  · have hserve : s.serve (.socket family type protocol) =
        (⟨(s.ask .socket).1.result, ByteArray.empty⟩,
          (s.ask .socket).2.own (s.ask .socket).1.result) := by
      rw [serve, socket, if_pos hkind]
    rw [hserve]
    refine ⟨[(.socket, (s.ask .socket).1)], calls_own .., ?_⟩
    rw [owned_own, show (s.ask .socket).2.owned = s.owned from rfl, ← owned_own]
    exact .opened ..
  · rw [serve_socket_of_other hkind]
    exact ⟨[], rfl, .refused nofun⟩

theorem answers_close (h : w.toInt32 ∈ s.owned) : s.Answers (.close w) := by
  have hserve : s.serve (.close w) =
      (⟨(s.network.answer s.calls (.close w.toInt32)).result, ByteArray.empty⟩,
        ({ s with owned := s.owned.erase w.toInt32 }.ask (.close w.toInt32)).2) := by
    rw [serve, close, owned?_of_mem h]
    rfl
  unfold Answers
  rw [hserve]
  exact ⟨[(.close w.toInt32, _)], rfl, .closed _ h⟩

/-- Where nothing waits the host is asked that, and no more. -/
theorem answers_of_idle (hserve : s.serve r = (refusal, (s.ask (.readable w.toInt32)).2))
    (hfd : r.fd? = some w) (h : w.toInt32 ∈ s.owned) (hcloses : ∀ w, r ≠ .close w) :
    s.Answers r := by
  refine answers_of_asked [(.readable w.toInt32, _)] hserve rfl rfl hfd h hcloses
    (fun _ => by decide) fun c hc => ?_
  obtain rfl := List.mem_singleton.1 hc
  exact ⟨rfl, fun _ => rfl⟩

theorem answers_accept (h : w.toInt32 ∈ s.owned) : s.Answers (.accept w) := by
  rcases accept_of_mem h with haccept | haccept
  · refine answers_of_idle ?_ rfl h nofun
    rw [serve, haccept]
    rfl
  · simp only [Answers, serve, haccept]
    refine ⟨[(.accept w.toInt32, _), (.readable w.toInt32, _)], calls_own .., ?_⟩
    rw [owned_own, show ((s.ask (.readable w.toInt32)).2.ask (.accept w.toInt32)).2.owned =
      s.owned from rfl, ← owned_own]
    exact .accepted _ h

theorem answers_receive (h : w.toInt32 ∈ s.owned) (len : Nat) : s.Answers (.receive w len) := by
  rcases receive_of_mem h len with hreceive | ⟨n, data, hreceive⟩
  · refine answers_of_idle ?_ rfl h nofun
    rw [serve, hreceive]
    rfl
  · have hserve : s.serve (.receive w len) = (⟨n, data⟩, ((s.ask (.readable w.toInt32)).2.ask
        (.receive w.toInt32 (min len maxTransfer.toNat))).2) := by
      rw [serve, hreceive]
    refine answers_of_asked [(.receive w.toInt32 (min len maxTransfer.toNat), _),
      (.readable w.toInt32, _)] hserve rfl rfl rfl h nofun nofun fun c hc => ?_
    simp only [List.map_cons, List.map_nil, List.mem_cons, List.not_mem_nil, or_false] at hc
    rcases hc with rfl | rfl <;> exact ⟨rfl, fun _ => rfl⟩

theorem answers (s : Sockets) (r : SocketRequest) : s.Answers r := by
  by_cases hforeign : ∃ w, r.fd? = some w ∧ w.toInt32 ∉ s.owned
  · obtain ⟨w, hfd, h⟩ := hforeign
    exact answers_of_not_mem hfd h
  have hmem (w : UInt32) (hfd : r.fd? = some w) : w.toInt32 ∈ s.owned :=
    Decidable.of_not_not fun h => hforeign ⟨w, hfd, h⟩
  cases r with
  | socket family type protocol => exact answers_socket s family type protocol
  | close fd => exact answers_close (hmem fd rfl)
  | connect fd peer host =>
    exact answers_of_onOwned (.connect · peer host) rfl rfl (hmem fd rfl) nofun rfl rfl fun _ => rfl
  | bind fd peer host =>
    exact answers_of_onOwned (.bind · peer host) rfl rfl (hmem fd rfl) nofun rfl rfl fun _ => rfl
  | listen fd backlog =>
    exact answers_of_onOwned (.listen · backlog.toInt32) rfl rfl (hmem fd rfl) nofun rfl rfl
      fun _ => rfl
  | send fd data =>
    exact answers_of_onOwned (.send · (data.extract 0 maxTransfer.toNat)) rfl rfl (hmem fd rfl) nofun
      rfl rfl fun _ => rfl
  | readable fd =>
    exact answers_of_onOwned .readable rfl rfl (hmem fd rfl) nofun rfl rfl fun _ => rfl
  | accept fd => exact answers_accept (hmem fd rfl)
  | receive fd len => exact answers_receive (hmem fd rfl) len

theorem exchange_of_asked {asked : HostLog} (h : (s.serve r).2.calls = asked ++ s.calls) :
    s.exchange r = ⟨r, (s.serve r).1.result, asked.map Prod.fst⟩ := by
  rw [exchange, h, List.length_append, Nat.add_sub_cancel, List.take_left']
  rfl

theorem served (s : Sockets) (r : SocketRequest) :
    s.Served (s.exchange r) (s.serve r).2.owned := by
  obtain ⟨asked, hcalls, hserved⟩ := s.answers r
  rwa [exchange_of_asked hcalls]

/-- No other call reaches the host. -/
theorem calls_serve (s : Sockets) (r : SocketRequest) :
    (s.serve r).2.calls.map Prod.fst = (s.exchange r).reached ++ s.calls.map Prod.fst := by
  obtain ⟨asked, hcalls, -⟩ := s.answers r
  rw [exchange_of_asked hcalls, hcalls, List.map_append]

end

/-! ## What a request leaves -/

section
variable {s : Sockets} {x : Exchange} {owned : List Int32}

theorem mem_own {fd result : Int32} :
    fd ∈ (s.own result).owned ↔ (result = fd ∧ 0 ≤ fd) ∨ fd ∈ s.owned := by
  rw [owned_own]
  split
  · rename_i hresult
    rw [List.mem_insert_iff]
    exact or_congr_left ⟨fun h => ⟨h.symm, h ▸ hresult⟩, fun h => h.1.symm⟩
  · rename_i hresult
    refine ⟨.inr, Or.rec (fun h => absurd ?_ hresult) id⟩
    exact h.1 ▸ h.2

theorem nodup_own (h : s.owned.Nodup) (result : Int32) : (s.own result).owned.Nodup := by
  rw [owned_own]
  split
  · exact h.insert
  · exact h

theorem Served.nodup (h : s.Served x owned) (hs : s.owned.Nodup) : owned.Nodup := by
  cases h with
  | refused => exact hs
  | opened family type protocol result => exact nodup_own hs result
  | closed result => exact hs.erase _
  | asked => exact hs
  | accepted result => exact nodup_own hs result

/-- A request opens the descriptor that it hands out and closes the one it says. -/
theorem Served.mem_iff (h : s.Served x owned) (hs : s.owned.Nodup) (fd : Int32) :
    fd ∈ owned ↔ x.HandsOut fd ∨ fd ∈ s.owned ∧ ¬x.Closes fd := by
  cases h with
  | @refused r hforeign =>
    have hout : ¬Exchange.HandsOut ⟨r, -1, []⟩ fd := by
      rintro ⟨-, rfl, hpos⟩
      exact absurd hpos (show ¬(0 : Int32) ≤ -1 by decide)
    have hclose (hfd : fd ∈ s.owned) : ¬Exchange.Closes ⟨r, -1, []⟩ fd := fun ⟨w, hr, hw⟩ => by
      subst hw
      refine hforeign w ?_ hfd
      rw [show r = .close w from hr]
      rfl
    exact ⟨fun hfd => .inr ⟨hfd, hclose hfd⟩, fun h => (h.resolve_left hout).1⟩
  | opened family type protocol result =>
    rw [mem_own]
    exact or_congr ⟨fun h => ⟨rfl, h⟩, And.right⟩ ⟨fun h => ⟨h, nofun⟩, And.left⟩
  | @closed w result hw =>
    rw [hs.mem_erase_iff]
    refine ⟨fun ⟨hne, hfd⟩ => .inr ⟨hfd, ?_⟩, ?_⟩
    · rintro ⟨w', heq, rfl⟩
      cases heq
      exact hne rfl
    · rintro (⟨hopens, -⟩ | ⟨hfd, hclose⟩)
      · cases hopens
      · exact ⟨fun heq => hclose ⟨w, rfl, heq.symm⟩, hfd⟩
  | asked hfd hw hclose hopens =>
    refine ⟨fun hmem => .inr ⟨hmem, fun ⟨w, hr, _⟩ => hclose w hr⟩, ?_⟩
    rintro (⟨hout, rfl, hpos⟩ | ⟨hmem, -⟩)
    · exact absurd hpos (Int32.not_le.2 (hopens hout))
    · exact hmem
  | accepted result =>
    rw [mem_own]
    exact or_congr ⟨fun h => ⟨rfl, h⟩, And.right⟩ ⟨fun h => ⟨h, nofun⟩, And.left⟩

/-- Only open descriptors reach the host. -/
theorem Served.mem_of_reached (h : s.Served x owned) {c : HostCall} (hc : c ∈ x.reached)
    {fd : Int32} (hfd : c.fd? = some fd) : fd ∈ s.owned := by
  cases h with
  | refused => cases hc
  | opened =>
    obtain rfl := List.mem_singleton.1 hc
    cases hfd
  | closed result hw =>
    obtain rfl := List.mem_singleton.1 hc
    obtain rfl := Option.some.inj hfd
    exact hw
  | asked _ hw _ _ hcalls =>
    obtain rfl := Option.some.inj (hfd.symm.trans (hcalls c hc).1)
    exact hw
  | @accepted w result hw =>
    have hname : c.fd? = some w.toInt32 := by
      simp only [List.mem_cons, List.not_mem_nil, or_false] at hc
      rcases hc with rfl | rfl <;> rfl
    obtain rfl := Option.some.inj (hfd.symm.trans hname)
    exact hw

/-- The host is asked to close a descriptor if the request closes one that is open, and then once. -/
theorem Served.count_closes (h : s.Served x owned) (fd : Int32) :
    (x.reached.countP (·.closes fd) = 0 ∧ (fd ∈ s.owned → ¬x.Closes fd)) ∨
      x.reached.countP (·.closes fd) = 1 ∧ fd ∈ s.owned ∧ x.Closes fd := by
  cases h with
  | refused hforeign =>
    refine .inl ⟨rfl, ?_⟩
    rintro hfd ⟨w, rfl, rfl⟩
    exact hforeign w rfl hfd
  | opened => exact .inl ⟨rfl, fun _ => nofun⟩
  | @closed w result hw =>
    by_cases heq : w.toInt32 = fd
    · subst heq
      refine .inr ⟨?_, hw, w, rfl, rfl⟩
      exact List.countP_singleton.trans (if_pos (decide_eq_true rfl))
    · refine .inl ⟨?_, fun _ ⟨w', hr, hw'⟩ => ?_⟩
      · exact List.countP_singleton.trans (if_neg fun h => heq (of_decide_eq_true h))
      · cases hr
        exact heq hw'
  | asked _ _ hclose _ hcalls =>
    refine .inl ⟨List.countP_eq_zero.2 fun c hc => ?_, fun _ ⟨w, hr, _⟩ => hclose w hr⟩
    rw [(hcalls c hc).2 fd]
    exact Bool.false_ne_true
  | accepted => exact .inl ⟨rfl, fun _ => nofun⟩

end

end Sockets

/-! ## Sessions -/

/-- What a sequence of requests comes to, latest first, and the table after it. -/
inductive Session (network : Network) : List Exchange → Sockets → Prop
  | start : Session network [] { network }
  | serve {log : List Exchange} {s : Sockets} (r : SocketRequest) : Session network log s →
      Session network (s.exchange r :: log) (s.serve r).2

/-- A descriptor was handed out and not closed since. -/
def Open : List Exchange → Int32 → Prop
  | [], _ => False
  | x :: log, fd => x.HandsOut fd ∨ Open log fd ∧ ¬x.Closes fd

/-- How often the host was asked to close a descriptor. -/
def closings (log : List Exchange) (fd : Int32) : Nat :=
  (log.flatMap (·.reached)).countP (·.closes fd)

theorem closings_cons (x : Exchange) (log : List Exchange) (fd : Int32) :
    closings (x :: log) fd = x.reached.countP (·.closes fd) + closings log fd := by
  rw [closings, List.flatMap_cons, List.countP_append]
  rfl

theorem Open.nonneg {log : List Exchange} {fd : Int32} (h : Open log fd) : 0 ≤ fd := by
  induction log with
  | nil => exact h.elim
  | cons x log ih => exact h.elim (·.2.2) fun h => ih h.1

/-- A word with the high bit names no descriptor. -/
theorem Open.lt {log : List Exchange} {w : UInt32} (h : Open log w.toInt32) : w < 0x80000000 := by
  have hsign : w.toInt32.toInt = (w.toNat : Int).bmod 4294967296 := by
    rw [Int32.toInt, UInt32.toBitVec_toInt32, BitVec.toInt_eq_toNat_bmod]
    rfl
  have hnonneg := Int32.le_iff_toInt_le.1 h.nonneg
  rw [hsign, Int.bmod_def, show (0 : Int32).toInt = 0 from rfl] at hnonneg
  rw [UInt32.lt_iff_toNat_lt, show (0x80000000 : UInt32).toNat = 0x80000000 from rfl]
  have hword := w.toNat_lt
  omega

theorem not_open_of_closed {later earlier : List Exchange} {x : Exchange} {fd : Int32}
    (hx : x.Closes fd) (hlater : ∀ y ∈ later, ¬y.HandsOut fd) :
    ¬Open (later ++ x :: earlier) fd := by
  induction later with
  | nil =>
    rintro (⟨hopens, -⟩ | ⟨-, hnot⟩)
    · obtain ⟨w, hr, -⟩ := hx
      rw [hr] at hopens
      cases hopens
    · exact hnot hx
  | cons y later ih =>
    rintro (hout | ⟨hopen, -⟩)
    · exact hlater y List.mem_cons_self hout
    · exact ih (fun z hz => hlater z (List.mem_cons_of_mem _ hz)) hopen

namespace Session

variable {network : Network} {log later earlier : List Exchange} {x : Exchange} {s : Sockets}
  {fd : Int32}

theorem nodup (h : Session network log s) : s.owned.Nodup := by
  induction h with
  | start => exact .nil
  | serve r h ih => exact (Sockets.served _ r).nodup ih

/-- The table has the open descriptors. -/
theorem mem_owned_iff (h : Session network log s) (fd : Int32) : fd ∈ s.owned ↔ Open log fd := by
  induction h with
  | start => exact ⟨nofun, False.elim⟩
  | serve r h ih => rw [(Sockets.served _ r).mem_iff h.nodup fd, ih, Open]

theorem calls_eq (h : Session network log s) :
    s.calls.map Prod.fst = log.flatMap (·.reached) := by
  induction h with
  | start => rfl
  | serve r h ih => rw [Sockets.calls_serve, ih, List.flatMap_cons]

/-- A session was one before its last requests. -/
theorem of_append (h : Session network (later ++ log) s) : ∃ s₀, Session network log s₀ := by
  induction later generalizing s with
  | nil => exact ⟨s, h⟩
  | cons y later ih =>
    cases h with
    | serve r h => exact ih h

theorem open_of_reached (h : Session network (later ++ x :: earlier) s) {c : HostCall}
    (hc : c ∈ x.reached) (hfd : c.fd? = some fd) : Open earlier fd := by
  obtain ⟨s₁, h₁⟩ := h.of_append
  cases h₁ with
  | serve r h₀ => exact (h₀.mem_owned_iff fd).1 ((Sockets.served _ r).mem_of_reached hc hfd)

/-- A descriptor that was handed out is open until it is closed, once. -/
theorem closings_later (h : Session network (later ++ x :: earlier) s) (hx : x.HandsOut fd)
    (hlater : ∀ y ∈ later, ¬y.HandsOut fd) :
    closings later fd = if fd ∈ s.owned then 0 else 1 := by
  induction later generalizing s with
  | nil => rw [if_pos ((h.mem_owned_iff fd).2 (.inl hx))]; rfl
  | cons y later ih =>
    cases h with
    | @serve _ s r h =>
      have hserved := s.served r
      have hout := hlater _ List.mem_cons_self
      have hmem := hserved.mem_iff h.nodup fd
      rw [closings_cons, ih h fun z hz => hlater z (List.mem_cons_of_mem _ hz)]
      rcases hserved.count_closes fd with ⟨hcount, hclose⟩ | ⟨hcount, hfd, hclose⟩
      · have hkept : fd ∈ (s.serve r).2.owned ↔ fd ∈ s.owned :=
          hmem.trans ⟨fun h => (h.resolve_left hout).1, fun h => .inr ⟨h, hclose h⟩⟩
        rw [hcount, Nat.zero_add]
        simp only [hkept]
      · have hgone : fd ∉ (s.serve r).2.owned := fun h =>
          ((hmem.1 h).resolve_left hout).2 hclose
        rw [hcount, if_pos hfd, if_neg hgone]

end Session

/-! ## Main result -/

open Sockets

/-- Whatever the host answers: the table is the set of the open descriptors. A request on any other is
refused and reaches nothing, as is one for another kind of socket. Only descriptors that are open reach
the host. From the time that one is handed out until it is handed out again, the host is asked to close
it once if it was closed and not at all if it is open; and to close it again is refused. -/
theorem descriptors_confined {network : Network} {log : List Exchange} {s : Sockets}
    (h : Session network log s) :
    (s.owned.Nodup ∧ ∀ fd, fd ∈ s.owned ↔ Open log fd) ∧
      (∀ r w, r.fd? = some w → ¬Open log w.toInt32 ∨ 0x80000000 ≤ w →
        s.serve r = (refusal, s)) ∧
      (∀ family type protocol, ¬(family = 2 ∧ type = 1 ∧ (protocol = 0 ∨ protocol = 6)) →
        s.serve (.socket family type protocol) = (refusal, s)) ∧
      s.calls.map Prod.fst = log.flatMap (·.reached) ∧
      ∀ later x earlier fd, log = later ++ x :: earlier →
        (∀ c ∈ x.reached, c.fd? = some fd → Open earlier fd) ∧
        ((∀ y ∈ later, ¬y.HandsOut fd) →
          (x.HandsOut fd → closings later fd = if fd ∈ s.owned then 0 else 1) ∧
          (x.Closes fd → ∀ w, w.toInt32 = fd → s.serve (.close w) = (refusal, s))) := by
  have hforeign (r : SocketRequest) (w : UInt32) (hfd : r.fd? = some w)
      (hnot : ¬Open log w.toInt32) : s.serve r = (refusal, s) :=
    serve_of_not_mem hfd fun hmem => hnot ((h.mem_owned_iff _).1 hmem)
  refine ⟨⟨h.nodup, h.mem_owned_iff⟩, fun r w hfd hw => ?_, fun _ _ _ => serve_socket_of_other,
    h.calls_eq, ?_⟩
  · exact hforeign r w hfd (hw.elim id fun hhigh hopen => UInt32.not_lt.2 hhigh hopen.lt)
  · rintro later x earlier fd rfl
    refine ⟨fun c => h.open_of_reached, fun hlater => ⟨fun hx => h.closings_later hx hlater, ?_⟩⟩
    rintro hx w rfl
    exact hforeign _ w rfl (not_open_of_closed hx hlater)

theorem descriptors_confined_closed :
    ∃ log s, Session .isolated log s ∧
      log = [⟨.close 3, 0, [.close 3]⟩, ⟨.socket 2 1 6, 3, [.socket]⟩] ∧ ¬Open log 3 ∧
      closings [⟨.close 3, 0, [.close 3]⟩] 3 = 1 ∧ s.serve (.close 3) = (refusal, s) ∧
      s.serve (.send 0xffffffff (.mk #[1])) = (refusal, s) ∧
      s.serve (.socket 10 1 0) = (refusal, s) := by
  have h : Session .isolated _ _ := (Session.start.serve (.socket 2 1 6)).serve (.close 3)
  obtain ⟨⟨-, howned⟩, hforeign, hother, -, hlog⟩ := descriptors_confined h
  obtain ⟨-, hlater⟩ := hlog [⟨.close 3, 0, [.close 3]⟩] ⟨.socket 2 1 6, 3, [.socket]⟩ [] 3 rfl
  obtain ⟨-, hclosed⟩ := hlog [] ⟨.close 3, 0, [.close 3]⟩ [⟨.socket 2 1 6, 3, [.socket]⟩] 3 rfl
  have hnot : ∀ y ∈ [(⟨.close 3, 0, [.close 3]⟩ : Exchange)], ¬y.HandsOut 3 := by
    rintro y hy ⟨hopens, -⟩
    obtain rfl := List.mem_singleton.1 hy
    cases hopens
  refine ⟨_, _, h, rfl, fun hopen => ?_, (hlater hnot).1 ⟨rfl, rfl, by decide⟩,
    (hclosed nofun).2 ⟨3, rfl, rfl⟩ 3 rfl, hforeign _ _ rfl (.inr (by decide)),
    hother 10 1 0 (by decide)⟩
  exact absurd ((howned 3).2 hopen) (by decide)

end PagedMachine
