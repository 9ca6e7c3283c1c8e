import BtServer.Proofs.ProxyEnds

/-! How far a connection between two proxies has got, seen from both ends and from the
messages on the way, and how the handlers move it on. -/

namespace BtServer.Proofs.ProxyLinks
open Lib ProxyTable ProxyEnds

variable {side : Side} {found : End} {accepting : Option End} {peer : ProxyPeer}

section Sides
variable (side : Side)

@[simp] theorem other_other : side.other.other = side := by cases side <;> rfl

@[simp] theorem other_ne : side.other ≠ side := by cases side <;> nofun

@[simp] theorem ne_other : side ≠ side.other := by cases side <;> nofun

theorem same_or_other (opener : Side) : side = opener ∨ side = opener.other := by
  cases side <;> cases opener <;> simp [Side.other]

end Sides

def idBytes (trackerId : UInt32) : Bytes := toLittleEndian 4 trackerId.toNat

theorem readTrackerId_idBytes (trackerId : UInt32) : Proxy.readTrackerId (.data (idBytes trackerId)) = some trackerId := by
  have length : (idBytes trackerId).length = 4 := length_toLittleEndian 4 _
  have small := trackerId.toNat_lt
  rw [Proxy.readTrackerId, if_pos (by omega), List.take_of_length_le (by omega), idBytes, littleEndian_toLittleEndian]
  simp

def Waiting (link : Link) (accepting : Option End) : Prop :=
  (link.accepted = false ∧ accepting = none) ∨
  (link.accepted = true ∧ ∃ peer, accepting = some ⟨peer, true, false⟩ ∧ peer.state = flagConnecting)

/-- How far a connection has got; `view` has its two ends. -/
inductive LinkOk (id : Side → UInt32) (link : Link) (view : Side → Option End) : Prop where
  | dialing {peer : ProxyPeer} (opening : view link.opener = some ⟨peer, false, true⟩) (state : peer.state = 0x81)
      (waiting : Waiting link (view link.opener.other)) (silent : ∀ side, link.queue side = [])
      (held : ∀ side, link.closed side = false)
  | greeted {peer : ProxyPeer} (opening : view link.opener = some ⟨peer, true, false⟩) (state : peer.state = 0x82)
      (waiting : Waiting link (view link.opener.other)) (silent : link.queue link.opener = [])
      (sent : link.queue link.opener.other = [idBytes (id link.opener)]) (held : ∀ side, link.closed side = false)
  | answered {first second : ProxyPeer} {rest : List Bytes} (opening : view link.opener = some ⟨first, true, false⟩)
      (state : first.state = 0x82) (accepting : view link.opener.other = some ⟨second, true, false⟩)
      (connected : second.isConnected) (greeting : second.trackerId = id link.opener)
      (sent : link.queue link.opener = idBytes (id link.opener.other) :: rest) (full : ∀ message ∈ rest, message ≠ [])
      (silent : link.queue link.opener.other = []) (held : ∀ side, link.closed side = false) (accepted : link.accepted = true)
  | complete (ends : ∀ side, ∃ peer, view side = some ⟨peer, true, false⟩ ∧ peer.isConnected ∧ peer.trackerId = id side.other)
      (full : ∀ side, ∀ message ∈ link.queue side, message ≠ []) (held : ∀ side, link.closed side = false)
      (accepted : link.accepted = true)
  | refused (accepting : view link.opener.other = none) (silent : link.queue link.opener = []) (accepted : link.accepted = true)
      (opening : view link.opener = none ∨ (∃ peer, view link.opener = some ⟨peer, false, true⟩ ∧ peer.state = 0x81) ∨
        ∃ peer, view link.opener = some ⟨peer, true, false⟩ ∧ peer.state = 0x82)

section Transitions
variable {id : Side → UInt32} {link : Link} {view : Side → Option End}

def After (id : Side → UInt32) (link : Link) (view : Side → Option End) (side : Side) (result : Option End) : Prop :=
  LinkOk id { link with closed := Function.update link.closed side result.isNone } (Function.update view side result)

theorem still_held (held : ∀ side, link.closed side = false) (side : Side) (found : End) :
    ∀ other, Function.update link.closed side (some found).isNone other = false := by
  intro other
  by_cases same : other = side
  · simp [same]
  · simpa [same] using held other

theorem Waiting.free (waiting : Waiting link accepting) (unaccepted : link.accepted = false) :
    accepting = none := by
  rcases waiting with ⟨-, free⟩ | ⟨accepted, -⟩
  · exact free
  · simp [unaccepted] at accepted

theorem LinkOk.accept (ok : LinkOk id link view) (unaccepted : link.accepted = false) :
    view link.opener.other = none ∧ After id { link with accepted := true } view link.opener.other none ∧
    ∀ peer, peer.state = flagConnecting → After id { link with accepted := true } view link.opener.other (some ⟨peer, true, false⟩) := by
  cases ok with
  | dialing opening state waiting silent held =>
    refine ⟨waiting.free unaccepted, .refused (by simp) (silent _) rfl (.inr (.inl ⟨_, by simpa using opening, state⟩)), ?_⟩
    intro peer connecting
    exact .dialing (by simpa using opening) state (.inr ⟨rfl, peer, by simp, connecting⟩) silent (still_held held _ _)
  | greeted opening state waiting silent sent held =>
    refine ⟨waiting.free unaccepted, .refused (by simp) silent rfl (.inr (.inr ⟨_, by simpa using opening, state⟩)), ?_⟩
    intro peer connecting
    exact .greeted (by simpa using opening) state (.inr ⟨rfl, peer, by simp, connecting⟩) silent sent (still_held held _ _)
  | answered _ _ _ _ _ _ _ _ _ accepted => simp [unaccepted] at accepted
  | complete _ _ _ accepted => simp [unaccepted] at accepted
  | refused _ _ accepted _ => simp [unaccepted] at accepted

theorem LinkOk.write (ok : LinkOk id link view) (present : view side = some found) (wants : found.wantWrite = true) :
    found.peer.state = 0x81 ∧ ∀ peer, peer.state = 0x82 →
      After id (link.push side.other (idBytes (id side))) view side (some ⟨peer, true, false⟩) := by
  have accepting : ∀ {accepting : Option End}, Waiting link accepting → accepting = some found → False := by
    intro accepting waiting same
    rcases waiting with ⟨-, free⟩ | ⟨-, peer, here, -⟩
    · rw [free] at same
      cases same
    · rw [here] at same
      cases same
      cases wants
  cases ok with
  | @dialing peer opening state waiting silent held =>
    rcases same_or_other side link.opener with rfl | rfl
    · rw [opening] at present
      cases present
      refine ⟨state, ?_⟩
      intro peer next
      refine .greeted (by simp [Link.push]) next ?_ (by simp [Link.push, silent]) (by simp [Link.push, silent]) (still_held held _ _)
      simpa [Link.push, Waiting] using waiting
    · exact (accepting waiting present).elim
  | @greeted peer opening state waiting silent sent held =>
    rcases same_or_other side link.opener with rfl | rfl
    · rw [opening] at present
      cases present
      cases wants
    · exact (accepting waiting present).elim
  | answered opening _ second =>
    rcases same_or_other side link.opener with rfl | rfl
    · rw [opening] at present
      cases present
      cases wants
    · rw [second] at present
      cases present
      cases wants
  | complete ends =>
    obtain ⟨peer, here, -, -⟩ := ends side
    rw [here] at present
    cases present
    cases wants
  | refused none silent accepted opening =>
    rcases same_or_other side link.opener with rfl | rfl
    · rcases opening with gone | ⟨peer, here, state⟩ | ⟨peer, here, state⟩
      · rw [gone] at present
        cases present
      · rw [here] at present
        cases present
        refine ⟨state, ?_⟩
        intro peer next
        exact .refused (by simpa [Link.push] using none) (by simp [Link.push, silent]) accepted
          (.inr (.inr ⟨peer, by simp [Link.push], next⟩))
      · rw [here] at present
        cases present
        cases wants
    · rw [none] at present
      cases present

theorem connected_phase (connected : peer.isConnected) :
    peer.state ≠ 0x81 ∧ peer.state ≠ 0x82 ∧ peer.state ≠ flagConnecting := by
  refine ⟨?_, ?_, ?_⟩ <;> intro state <;> rw [ProxyPeer.isConnected, ProxyPeer.phase, state] at connected <;> revert connected <;> decide

private theorem Waiting.unconnected (waiting : Waiting link accepting)
    (present : accepting = some found) : ¬ found.peer.isConnected := by
  intro connected
  rcases waiting with ⟨-, free⟩ | ⟨-, peer, here, state⟩
  · rw [free] at present
    cases present
  · rw [here] at present
    cases present
    exact (connected_phase connected).2.2 state

theorem LinkOk.sync (ok : LinkOk id link view) (present : view side = some found) (connected : found.peer.isConnected) :
    found.peer.trackerId = id side.other ∧ ∀ bytes, bytes ≠ [] →
      After id (link.push side.other bytes) view side (some { found with wantWrite := false }) := by
  cases ok with
  | dialing opening state waiting =>
    rcases same_or_other side link.opener with rfl | rfl
    · rw [opening] at present
      cases present
      exact absurd state (connected_phase connected).1
    · exact absurd connected (waiting.unconnected present)
  | greeted opening state waiting =>
    rcases same_or_other side link.opener with rfl | rfl
    · rw [opening] at present
      cases present
      exact absurd state (connected_phase connected).2.1
    · exact absurd connected (waiting.unconnected present)
  | @answered first second rest opening state accepting done greeting sent full silent held accepted =>
    rcases same_or_other side link.opener with rfl | rfl
    · rw [opening] at present
      cases present
      exact absurd state (connected_phase connected).2.1
    · rw [accepting] at present
      cases present
      refine ⟨by simpa using greeting, ?_⟩
      intro bytes some
      refine @LinkOk.answered _ _ _ first second (rest ++ [bytes]) ?_ state ?_ done greeting ?_ ?_ ?_ (still_held held _ _) accepted
      · simpa [Link.push] using opening
      · simp [Link.push]
      · simp [Link.push, sent]
      · intro message member
        rcases List.mem_append.mp member with old | new
        · exact full message old
        · rwa [List.mem_singleton.mp new]
      · simpa [Link.push] using silent
  | complete ends full held accepted =>
    obtain ⟨peer, here, -, greeting⟩ := ends side
    rw [here] at present
    cases present
    refine ⟨greeting, ?_⟩
    intro bytes some
    refine .complete ?_ ?_ (still_held held _ _) accepted
    · intro other
      by_cases same : other = side
      · exact ⟨peer, by simp [same], connected, by rw [same, greeting]⟩
      · simpa [same] using ends other
    · intro other message member
      by_cases same : other = side.other
      · subst same
        simp only [Link.push, Function.update_self, List.mem_append, List.mem_singleton] at member
        rcases member with old | rfl
        · exact full _ message old
        · exact some
      · exact full other message (by simpa [Link.push, same] using member)
  | refused none silent accepted opening =>
    rcases same_or_other side link.opener with rfl | rfl
    · rcases opening with gone | ⟨peer, here, state⟩ | ⟨peer, here, state⟩
      · rw [gone] at present
        cases present
      · rw [here] at present
        cases present
        exact absurd state (connected_phase connected).1
      · rw [here] at present
        cases present
        exact absurd state (connected_phase connected).2.1
    · rw [none] at present
      cases present

/-- What there can be to read, and what becomes of the connection. -/
inductive Reading (id : Side → UInt32) (link : Link) (view : Side → Option End) (side : Side) (peer : ProxyPeer) : Prop where
  | greeting (state : peer.state = flagConnecting) (queue : link.queue side = [idBytes (id side.other)])
      (closes : After id (link.pop side 4) view side none)
      (accepts : ∀ peer, peer.isConnected → peer.trackerId = id side.other →
        After id ((link.pop side 4).push side.other (idBytes (id side))) view side (some ⟨peer, true, false⟩))
  | answer {rest : List Bytes} {second : End} (state : peer.state = 0x82)
      (queue : link.queue side = idBytes (id side.other) :: rest)
      (other : view side.other = some second) (connected : second.peer.isConnected)
      (accepts : ∀ peer, peer.isConnected → peer.trackerId = id side.other →
        After id (link.pop side 4) view side (some ⟨peer, true, false⟩))
  | data {message : Bytes} {rest : List Bytes} (connected : peer.isConnected)
      (queue : link.queue side = message :: rest) (full : message ≠ [])
      (receives : ∀ size next, next.isConnected → next.trackerId = peer.trackerId →
        After id (link.pop side size) view side (some ⟨next, true, false⟩))
  | ended (state : peer.state = 0x82) (queue : link.queue side = []) (closes : After id (link.pop side 4) view side none)

private theorem pop_nil (queue : link.queue side = []) (size : Nat) : link.pop side size = link := by
  simp [Link.pop, queue]

private theorem pop_greeting {trackerId : UInt32} {rest : List Bytes} (queue : link.queue side = idBytes trackerId :: rest) :
    link.pop side 4 = { link with queue := Function.update link.queue side rest } := by
  have whole : (idBytes trackerId).drop 4 = [] := List.drop_eq_nil_iff.mpr (length_toLittleEndian 4 _).le
  simp [Link.pop, queue, whole]

private theorem pop_full (full : ∀ side, ∀ message ∈ link.queue side, message ≠ []) (size : Nat) :
    ∀ other, ∀ message ∈ (link.pop side size).queue other, message ≠ [] := by
  intro other message member
  cases queue : link.queue side with
  | nil => exact full other message (by simpa [pop_nil queue] using member)
  | cons first rest =>
    simp only [Link.pop, queue] at member
    by_cases same : other = side
    · subst same
      rw [Function.update_self] at member
      split at member
      · exact full other message (by simp [queue, member])
      next left =>
        rcases List.mem_cons.mp member with rfl | later
        · exact left
        · exact full other message (by simp [queue, later])
    · exact full other message (by simpa [same] using member)

private theorem pop_fields (side : Side) (size : Nat) :
    (link.pop side size).closed = link.closed ∧ (link.pop side size).accepted = link.accepted := by
  unfold Link.pop
  split <;> exact ⟨rfl, rfl⟩

private theorem completes {second : ProxyPeer} (connected : peer.isConnected) (greeting : peer.trackerId = id side.other)
    (other : view side.other = some ⟨second, true, false⟩) (also : second.isConnected) (answer : second.trackerId = id side)
    (full : ∀ side, ∀ message ∈ link.queue side, message ≠ []) (held : ∀ side, link.closed side = false)
    (accepted : link.accepted = true) : After id link view side (some ⟨peer, true, false⟩) := by
  refine .complete ?_ full (still_held held _ _) accepted
  intro which
  rcases same_or_other which side with rfl | rfl
  · exact ⟨peer, by simp, connected, greeting⟩
  · exact ⟨second, by simpa using other, also, by simpa using answer⟩

theorem LinkOk.read (ok : LinkOk id link view) (present : view side = some found)
    (wants : found.wantRead = true) (ready : link.queue side ≠ [] ∨ link.closed side.other = true) :
    found = ⟨found.peer, true, false⟩ ∧ Reading id link view side found.peer := by
  have unheld : (∀ side, link.closed side = false) → link.queue side ≠ [] := by
    intro held
    rcases ready with some | closed
    · exact some
    · simp [held] at closed
  cases ok with
  | dialing _ _ _ silent held => exact absurd (silent side) (unheld held)
  | @greeted peer opening state waiting silent sent held =>
    rcases same_or_other side link.opener with rfl | rfl
    · exact absurd silent (unheld held)
    rcases waiting with ⟨-, free⟩ | ⟨accepted, second, here, connecting⟩
    · rw [free] at present
      cases present
    rw [here] at present
    cases present
    refine ⟨rfl, .greeting connecting (by simpa using sent) ?_ ?_⟩
    · rw [pop_greeting sent]
      exact .refused (by simp) (by simpa using silent) accepted (.inr (.inr ⟨peer, by simpa using opening, state⟩))
    · intro next connected greeting
      rw [pop_greeting sent]
      refine @LinkOk.answered _ _ _ peer next [] ?_ state ?_ connected ?_ ?_ (by simp) ?_ (still_held held _ _) accepted
      · simpa [Link.push] using opening
      · simp [Link.push]
      · simpa [Link.push] using greeting
      · simp [Link.push, silent]
      · simp [Link.push]
  | @answered first second rest opening state accepting connected greeting sent full silent held accepted =>
    rcases same_or_other side link.opener with rfl | rfl
    · rw [opening] at present
      cases present
      refine ⟨rfl, .answer state sent accepting connected ?_⟩
      intro next done known
      refine completes done known accepting connected greeting ?_ ?_ ?_
      · intro other message member
        rw [pop_greeting sent] at member
        by_cases same : other = link.opener
        · subst same
          exact full message (by simpa using member)
        · rw [(same_or_other other link.opener).resolve_left same] at member
          simp [silent] at member
      · rw [pop_greeting sent]
        exact held
      · rw [pop_greeting sent]
        exact accepted
    · exact absurd silent (unheld held)
  | complete ends full held accepted =>
    obtain ⟨peer, here, connected, greeting⟩ := ends side
    rw [here] at present
    cases present
    obtain ⟨message, rest, queue⟩ := List.exists_cons_of_ne_nil (unheld held)
    refine ⟨rfl, .data connected queue (full side message (by simp [queue])) ?_⟩
    intro size next done known
    obtain ⟨second, there, also, answer⟩ := ends side.other
    obtain ⟨closed, same⟩ := @pop_fields link side size
    exact completes done (known.trans greeting) there also (by simpa using answer) (pop_full full size) (by rwa [closed]) (by rwa [same])
  | refused none silent accepted opening =>
    rcases same_or_other side link.opener with rfl | rfl
    · rcases opening with gone | ⟨peer, here, state⟩ | ⟨peer, here, state⟩
      · rw [gone] at present
        cases present
      · rw [here] at present
        cases present
        cases wants
      · rw [here] at present
        cases present
        refine ⟨rfl, .ended state silent ?_⟩
        rw [pop_nil silent]
        exact .refused (by simpa using none) silent accepted (.inl (by simp))
    · rw [none] at present
      cases present

end Transitions

end BtServer.Proofs.ProxyLinks
