import BtServer.Proofs.ProxyLinks

/-! The handshake of two proxies that connect to each other. As long as a side finishes a handshake only while the other side
has no other connection, at most one connection counts as connected, and it is kept. Otherwise each side may keep the
connection that the other one closes. -/

namespace BtServer.Proofs.ProxyHandshake
open Lib ProxyTable ProxyEnds ProxyLinks

structure PairOk (id : Side → UInt32) (pair : ProxyPair) : Prop where
  tabled : ∀ side, Tabled (pair.proxy side) pair.links.length
  fixed : ∀ side, (pair.proxy side).gTrackerId = id side ∧ (pair.proxy side).gConnectionCount = 1
  links : ∀ n link, pair.links[n]? = some link → LinkOk id link fun side => endOf (pair.proxy side) n
  single : ∀ side other n m, pair.Connected side n → pair.Connected other m → n = m

structure Progress (id : Side → UInt32) (pair after : ProxyPair) : Prop where
  ok : PairOk id after
  stays : ∀ side n, pair.Connected side n → after.Connected side n

theorem connected_iff {pair : ProxyPair} {side : Side} {n : Nat} :
    pair.Connected side n ↔ ∃ found, endOf (pair.proxy side) n = some found ∧ found.peer.isConnected := by
  constructor
  · intro connected
    obtain ⟨socket, known, connected⟩ := connected
    rw [Option.mem_def] at known
    exact ⟨_, by rw [endOf, known]; rfl, connected⟩
  · intro ends
    obtain ⟨found, present, connected⟩ := ends
    obtain ⟨socket, known, peer, -, -⟩ := endOf_some present
    exact ⟨socket, known, by rw [peer]; exact connected⟩

section Handled
variable {id : Side → UInt32} {pair : ProxyPair} {side : Side} {n : Nat} {proxy : Proxy} {link taken : Link} {result : Option End}

private theorem handled_view (effect : Effect (pair.proxy side) proxy pair.links.length n result) (other : Side) (m : Nat) :
    endOf ((pair.handled side n proxy taken).proxy other) m =
      if other = side ∧ m = n then result else endOf (pair.proxy other) m := by
  by_cases same : other = side
  · subst same
    by_cases here : m = n
    · subst here
      simp [ProxyPair.handled, effect.here]
    · simp [ProxyPair.handled, here, effect.there m here]
  · simp [ProxyPair.handled, same]

theorem handled_progress (ok : PairOk id pair) (known : pair.links[n]? = some link)
    (effect : Effect (pair.proxy side) proxy pair.links.length n result)
    (here : LinkOk id { taken with closed := Function.update taken.closed side result.isNone }
      (Function.update (fun side => endOf (pair.proxy side) n) side result))
    (kept : pair.Connected side n → ∃ found, result = some found ∧ found.peer.isConnected)
    (fresh : ∀ found, result = some found → found.peer.isConnected → ∀ other m, pair.Connected other m → m = n) :
    Progress id pair (pair.handled side n proxy taken) := by
  have view := @handled_view pair side n proxy taken result effect
  have connected : ∀ other m, (pair.handled side n proxy taken).Connected other m ↔
      if other = side ∧ m = n then ∃ found, result = some found ∧ found.peer.isConnected else pair.Connected other m := by
    intro other m
    rw [connected_iff, view]
    split
    · rfl
    · exact connected_iff.symm
  have gone : decide (proxy.sockets n = none) = result.isNone := by
    rw [← effect.here, endOf, Option.isNone_map]
    cases proxy.sockets n <;> simp
  refine ⟨⟨?_, ?_, ?_, ?_⟩, ?_⟩
  · intro other
    by_cases same : other = side
    · subst same
      simpa [ProxyPair.handled] using effect.tabled
    · simpa [ProxyPair.handled, same] using ok.tabled other
  · intro other
    by_cases same : other = side
    · subst same
      simpa [ProxyPair.handled, effect.fixed.1, effect.fixed.2] using ok.fixed other
    · simpa [ProxyPair.handled, same] using ok.fixed other
  · intro m found stored
    by_cases same : m = n
    · subst same
      have bound := (List.getElem?_eq_some_iff.mp known).1
      simp only [ProxyPair.handled, List.getElem?_set_self bound, gone, Option.some.injEq] at stored
      subst stored
      convert here using 1
      funext other
      rw [view, Function.update_apply]
      simp
    · simp only [ProxyPair.handled, List.getElem?_set_ne (Ne.symm same)] at stored
      have before := ok.links m found stored
      simpa only [view, same, and_false, if_false] using before
  · intro first second m k
    rw [connected, connected]
    split <;> split
    next left right =>
      intro _ _
      rw [left.2, right.2]
    next left _ =>
      intro now before
      obtain ⟨found, same, connected⟩ := now
      rw [left.2, fresh found same connected second k before]
    next _ right =>
      intro before now
      obtain ⟨found, same, connected⟩ := now
      rw [right.2, fresh found same connected first m before]
    next => exact ok.single first second m k
  · intro other m before
    rw [connected]
    split
    next here =>
      obtain ⟨rfl, rfl⟩ := here
      exact kept before
    next => exact before

end Handled

/-- A side finishes a handshake only while the other one has no other connection, and
there is room for what is read on a connection. -/
def Careful (pair : ProxyPair) : PairEvent → Prop
  | .read side n =>
    (∀ link ∈ pair.links[n]?, ((pair.proxy side).greetingOn n (ProxyPair.arriving link side)).any Greeting.isAccepted = true →
      ∀ m < pair.links.length, pair.Connected side.other m → m = n) ∧
    (∀ socket ∈ (pair.proxy side).sockets n, ((pair.proxy side).gConnections socket.peer).isConnected →
      ((pair.proxy side).gConnections socket.peer).incoming.indata.length < indataSize)
  | .reconnects _ | .accept _ _ | .write _ _ | .sync _ _ _ => True

instance (pair : ProxyPair) : (event : PairEvent) → Decidable (Careful pair event)
  | .read _ _ => inferInstanceAs (Decidable (_ ∧ _))
  | .reconnects _ | .accept _ _ | .write _ _ | .sync _ _ _ => inferInstanceAs (Decidable True)

section Events
variable {id : Side → UInt32} {pair : ProxyPair} {side : Side} {n : Nat}

theorem PairOk.opened (ok : PairOk id pair) {found : End} (present : endOf (pair.proxy side) n = some found) :
    ∃ link, pair.links[n]? = some link := by
  obtain ⟨socket, known, -⟩ := endOf_some present
  exact ⟨_, List.getElem?_eq_getElem ((ok.tabled side).bound known)⟩

theorem PairOk.bound (ok : PairOk id pair) (connected : pair.Connected side n) : n < pair.links.length := by
  obtain ⟨socket, known, -⟩ := connected
  exact (ok.tabled side).bound known

theorem accept_progress (ok : PairOk id pair) (enabled : pair.Enabled (.accept side n)) :
    Progress id pair (pair.next (.accept side n)) := by
  obtain ⟨link, known, foreign, unaccepted⟩ := enabled
  rw [Option.mem_def] at known
  have bound := (List.getElem?_eq_some_iff.mp known).1
  obtain rfl : side = link.opener.other := (same_or_other side link.opener).resolve_left (Ne.symm foreign)
  obtain ⟨free, refuses, accepts⟩ := (ok.links n link known).accept unaccepted
  have unconnected : ¬ pair.Connected link.opener.other n := by
    rw [connected_iff, free]
    simp
  simp only [ProxyPair.next, known]
  rcases handleAccept_effect (ok.tabled _) bound free with ⟨peer, state, effect⟩ | effect
  · refine handled_progress ok known effect (accepts peer state) (fun connected => absurd connected unconnected) ?_
    intro found same connected
    cases same
    exact absurd state (connected_phase connected).2.2
  · exact handled_progress ok known effect refuses (fun connected => absurd connected unconnected) nofun

theorem write_progress (ok : PairOk id pair) (enabled : pair.Enabled (.write side n)) :
    Progress id pair (pair.next (.write side n)) := by
  obtain ⟨socket, stored, wants⟩ := enabled
  rw [Option.mem_def] at stored
  have present : endOf (pair.proxy side) n = some ⟨(pair.proxy side).gConnections socket.peer, socket.wantRead, socket.wantWrite⟩ := by
    rw [endOf, stored]
    rfl
  obtain ⟨link, known⟩ := ok.opened present
  obtain ⟨state, sends⟩ := (ok.links n link known).write present wants
  have phase : ((pair.proxy side).gConnections socket.peer).phase = flagConnecting := by
    rw [ProxyPeer.phase, state]
    rfl
  have effect := handleWrite_greets (ok.tabled side) present phase
  have greeting : greetingBytes (pair.proxy side) = idBytes (id side) := by rw [greetingBytes, (ok.fixed side).1, idBytes]
  have waits : setPhase ((pair.proxy side).gConnections socket.peer).state flagWaittrackerid = 0x82 := by
    rw [state]
    rfl
  simp only [ProxyPair.next, known, greeting]
  refine handled_progress ok known effect (sends _ waits) ?_ ?_
  · intro connected
    obtain ⟨found, here, connected⟩ := connected_iff.mp connected
    rw [present] at here
    cases here
    exact absurd state (connected_phase connected).1
  · intro found same connected
    cases same
    exact absurd waits (connected_phase connected).2.1

theorem sync_progress (ok : PairOk id pair) {bytes : Bytes} (enabled : pair.Enabled (.sync side n bytes)) :
    Progress id pair (pair.next (.sync side n bytes)) := by
  obtain ⟨connected, some⟩ := enabled
  obtain ⟨found, present, done⟩ := connected_iff.mp connected
  obtain ⟨link, known⟩ := ok.opened present
  obtain ⟨-, sends⟩ := (ok.links n link known).sync present done
  have effect := handleWrite_sends (ok.tabled side) present done
  simp only [ProxyPair.next, known]
  refine handled_progress ok known effect (sends bytes some) (fun _ => ⟨_, rfl, done⟩) ?_
  intro _ _ _ other m also
  exact ok.single other side m n also connected

theorem greeting_idBytes (proxy : Proxy) (peer : ProxyPeer) (trackerId : UInt32) :
    proxy.greeting peer (.data (idBytes trackerId)) true = if proxy.alreadyConnected trackerId then .duplicate
      else if trackerId = proxy.gTrackerId then .soliloquy else .accepted trackerId := by
  simp [Proxy.greeting, readTrackerId_idBytes]

theorem PairOk.already (ok : PairOk id pair) :
    (pair.proxy side).alreadyConnected (id side.other) ↔ ∃ m, pair.Connected side m := by
  rw [(ok.tabled side).connected]
  constructor
  · intro ends
    obtain ⟨m, found, present, connected, -⟩ := ends
    exact ⟨m, connected_iff.mpr ⟨found, present, connected⟩⟩
  · intro ends
    obtain ⟨m, connected⟩ := ends
    obtain ⟨found, present, connected⟩ := connected_iff.mp connected
    obtain ⟨link, known⟩ := ok.opened present
    exact ⟨m, found, present, connected, ((ok.links m link known).sync present connected).1⟩

theorem answers_iff {proxy : Proxy} {socket : Socket} {outcome : TryRead} (stored : proxy.sockets n = some socket) :
    proxy.answers n outcome ↔ (proxy.gConnections socket.peer).state = flagConnecting ∧
      (proxy.greeting (proxy.gConnections socket.peer) outcome true).isAccepted = true := by
  simp [Proxy.answers, stored]

theorem read_progress (distinct : ∀ side, id side.other ≠ id side) (ok : PairOk id pair) (careful : Careful pair (.read side n))
    (enabled : pair.Enabled (.read side n)) : Progress id pair (pair.next (.read side n)) := by
  obtain ⟨link, known, socket, stored, wants, ready⟩ := enabled
  rw [Option.mem_def] at known stored
  obtain ⟨single, room⟩ := careful
  have single := single link known
  have room := room socket stored
  obtain ⟨peer, entry⟩ : ∃ peer, (pair.proxy side).gConnections socket.peer = peer := ⟨_, rfl⟩
  have present : endOf (pair.proxy side) n = some ⟨peer, socket.wantRead, socket.wantWrite⟩ := by
    rw [endOf, stored, ← entry]
    rfl
  obtain ⟨shape, reading⟩ := (ok.links n link known).read present wants ready
  rw [shape] at present
  have answers := @answers_iff n _ _ (ProxyPair.arriving link side) stored
  rw [entry] at room answers
  have unconnected : ¬ peer.isConnected → ¬ pair.Connected side n := by
    intro waits connected
    obtain ⟨found, here, connected⟩ := connected_iff.mp connected
    rw [present] at here
    cases here
    exact waits connected
  have size : ¬ peer.isConnected → (pair.proxy side).readSize n = 4 := by
    intro waits
    simp [Proxy.readSize, stored, entry, waits]
  have foreign : id side.other ≠ (pair.proxy side).gTrackerId := by
    rw [(ok.fixed side).1]
    exact distinct side
  have greets : greetingBytes (pair.proxy side) = idBytes (id side) := by rw [greetingBytes, (ok.fixed side).1, idBytes]
  have done : ProxyPeer.isConnected { peer with trackerId := id side.other, state := setPhase peer.state flagConnected } :=
    setPhase_connected peer.state
  simp only [ProxyPair.next, known]
  cases reading with
  | greeting state queue closes accepts =>
    have waits : ¬ peer.isConnected := fun connected => (connected_phase connected).2.2 state
    have phase : peer.phase = flagConnecting := by
      rw [ProxyPeer.phase, state]
      rfl
    have outcome : ProxyPair.arriving link side = .data (idBytes (id side.other)) := by simp [ProxyPair.arriving, queue]
    have verdict := greeting_idBytes (pair.proxy side) peer (id side.other)
    rw [outcome] at single answers ⊢
    rw [size waits, greets]
    by_cases already : (pair.proxy side).alreadyConnected (id side.other)
    · rw [if_pos already] at verdict
      have refused : (Proxy.greeting (pair.proxy side) peer (.data (idBytes (id side.other))) true).isAccepted = false := by
        rw [verdict]
        rfl
      rw [if_neg (by rw [answers, refused]; simp)]
      refine handled_progress ok known (handleRead_closes (ok.tabled side) present (.inl phase) refused) closes ?_ ?_
      · exact fun connected => absurd connected (unconnected waits)
      · intro found gone
        cases gone
    · rw [if_neg already, if_neg foreign] at verdict
      rw [if_pos (by rw [answers, verdict]; exact ⟨state, rfl⟩)]
      refine handled_progress ok known (handleRead_accepts (ok.tabled side) present (.inl phase) verdict) (accepts _ done rfl) ?_ ?_
      · exact fun connected => absurd connected (unconnected waits)
      · intro _ _ _ other m connected
        rcases same_or_other other side with rfl | rfl
        · exact absurd (ok.already.mpr ⟨m, connected⟩) already
        · refine single ?_ m (ok.bound connected) connected
          simp [Proxy.greetingOn, stored, entry, phase, verdict, Greeting.isAccepted]
  | @answer rest second state queue other connected accepts =>
    have waits : ¬ peer.isConnected := fun connected => (connected_phase connected).2.1 state
    have finished : pair.Connected side.other n := connected_iff.mpr ⟨second, other, connected⟩
    have phase : peer.phase = flagWaittrackerid := by
      rw [ProxyPeer.phase, state]
      rfl
    have outcome : ProxyPair.arriving link side = .data (idBytes (id side.other)) := by simp [ProxyPair.arriving, queue]
    have verdict := greeting_idBytes (pair.proxy side) peer (id side.other)
    have fresh : ¬ (pair.proxy side).alreadyConnected (id side.other) := by
      rw [ok.already]
      intro found
      obtain ⟨m, connected⟩ := found
      obtain rfl := ok.single side side.other m n connected finished
      exact unconnected waits connected
    rw [if_neg fresh, if_neg foreign] at verdict
    rw [outcome] at answers ⊢
    rw [size waits, if_neg (by rw [answers, state]; simp [flagConnecting])]
    refine handled_progress ok known (handleRead_accepts (ok.tabled side) present (.inr phase) verdict) (accepts _ done rfl) ?_ ?_
    · exact fun connected => absurd connected (unconnected waits)
    · intro _ _ _ other m connected
      exact ok.single other side.other m n connected finished
  | @data message rest connected queue full receives =>
    have outcome : ProxyPair.arriving link side = .data message := by simp [ProxyPair.arriving, queue]
    have here : pair.Connected side n := connected_iff.mpr ⟨_, present, connected⟩
    rw [outcome] at answers ⊢
    rw [if_neg (by rw [answers]; exact fun also => (connected_phase connected).2.2 also.1)]
    obtain ⟨incoming, effect⟩ := handleRead_receives (ok.tabled side) present connected full (room connected)
    refine handled_progress ok known effect (receives _ _ connected rfl) (fun _ => ⟨_, rfl, connected⟩) ?_
    intro _ _ _ other m also
    exact ok.single other side m n also here
  | ended state queue closes =>
    have waits : ¬ peer.isConnected := fun connected => (connected_phase connected).2.1 state
    have phase : peer.phase = flagWaittrackerid := by
      rw [ProxyPeer.phase, state]
      rfl
    have outcome : ProxyPair.arriving link side = .data [] := by simp [ProxyPair.arriving, queue]
    rw [outcome] at answers ⊢
    rw [size waits, if_neg (by rw [answers, state]; simp [flagConnecting])]
    refine handled_progress ok known (handleRead_closes (ok.tabled side) present (.inr phase) rfl) closes ?_ ?_
    · exact fun connected => absurd connected (unconnected waits)
    · intro found gone
      cases gone

theorem reconnects_progress (ok : PairOk id pair) : Progress id pair (pair.next (.reconnects side)) := by
  obtain ⟨tracker, count⟩ := ok.fixed side
  by_cases needs : ((pair.proxy side).gConnections 0).needsConnect
  · obtain ⟨peer, state, effect⟩ := handleReconnects_begins (ok.tabled side) count needs
    have view : ∀ other m, endOf ((pair.next (.reconnects side)).proxy other) m =
        if other = side ∧ m = pair.links.length then some ⟨peer, false, true⟩ else endOf (pair.proxy other) m := by
      intro other m
      by_cases same : other = side
      · subst same
        by_cases here : m = pair.links.length
        · simp [ProxyPair.next, here, effect.here]
        · simp [ProxyPair.next, here, effect.there m here]
      · simp [ProxyPair.next, same]
    have links : (pair.next (.reconnects side)).links = pair.links ++ [.opened side] := by simp [ProxyPair.next, needs]
    have connected : ∀ other m, (pair.next (.reconnects side)).Connected other m ↔ pair.Connected other m := by
      intro other m
      rw [connected_iff, connected_iff, view]
      split
      next new =>
        obtain ⟨rfl, rfl⟩ := new
        rw [(ok.tabled other).fresh]
        constructor
        · intro now
          obtain ⟨found, same, connected⟩ := now
          cases same
          exact absurd state (connected_phase connected).1
        · simp
      next => rfl
    refine ⟨⟨?_, ?_, ?_, ?_⟩, fun other m before => (connected other m).mpr before⟩
    · intro other
      rw [links, List.length_append]
      by_cases same : other = side
      · subst same
        simpa [ProxyPair.next] using effect.tabled
      · simpa [ProxyPair.next, same] using (ok.tabled other).grow
    · intro other
      by_cases same : other = side
      · subst same
        simpa [ProxyPair.next, effect.fixed.1, effect.fixed.2] using ok.fixed other
      · simpa [ProxyPair.next, same] using ok.fixed other
    · intro m link stored
      rw [links] at stored
      by_cases old : m < pair.links.length
      · rw [List.getElem?_append_left old] at stored
        have before := ok.links m link stored
        simpa only [view, old.ne, and_false, if_false] using before
      · obtain ⟨rfl, rfl⟩ : m = pair.links.length ∧ link = .opened side := by
          have bound := (List.getElem?_eq_some_iff.mp stored).1
          rw [List.length_append, List.length_singleton] at bound
          obtain rfl : m = pair.links.length := by omega
          exact ⟨rfl, by simpa using stored.symm⟩
        refine .dialing (by simp [view, Link.opened]) state (.inl ⟨rfl, ?_⟩) (fun _ => rfl) (fun _ => rfl)
        simp only [view, Link.opened, other_ne, false_and, if_false]
        exact (ok.tabled side.other).fresh
    · intro first second m k
      rw [connected, connected]
      exact ok.single first second m k
  · have same : pair.next (.reconnects side) = pair := by
      simp [ProxyPair.next, handleReconnects_eq count, needs]
    rw [same]
    exact ⟨ok, fun _ _ connected => connected⟩

theorem step_progress (distinct : ∀ side, id side.other ≠ id side) (ok : PairOk id pair) {event : PairEvent} {after : ProxyPair}
    (careful : Careful pair event) (moved : pair.Step event after) : Progress id pair after := by
  obtain ⟨enabled, rfl⟩ := moved
  cases event with
  | reconnects side => exact reconnects_progress ok
  | accept side n => exact accept_progress ok enabled
  | read side n => exact read_progress distinct ok careful enabled
  | write side n => exact write_progress ok enabled
  | sync side n bytes => exact sync_progress ok enabled

theorem start_ok (id : Side → UInt32) : PairOk id (.start id) := by
  have free : ∀ side n, endOf ((ProxyPair.start id).proxy side) n = none := fun _ _ => rfl
  refine ⟨?_, fun _ => ⟨rfl, rfl⟩, ?_, ?_⟩
  · intro side
    refine ⟨start_valid _ _, ?_, nofun⟩
    intro i busy
    refine absurd ?_ busy
    simp only [ProxyPair.start, Proxy.start, ProxyPeer.phase]
    split <;> decide
  · intro n link stored
    simp [ProxyPair.start] at stored
  · intro side other n m connected
    rw [connected_iff, free] at connected
    simp at connected

theorem PairOk.duplicate (ok : PairOk id pair) (closes : pair.ClosesDuplicate side n) :
    ¬ pair.Connected side n ∧ (∃ m, pair.Connected side m) ∧ Careful pair (.read side n) := by
  obtain ⟨-, link, known, verdict⟩ := closes
  rw [Option.mem_def] at known
  obtain ⟨socket, stored, phase, duplicate⟩ : ∃ socket, (pair.proxy side).sockets n = some socket ∧
      (((pair.proxy side).gConnections socket.peer).phase = flagConnecting ∨
        ((pair.proxy side).gConnections socket.peer).phase = flagWaittrackerid) ∧
      (pair.proxy side).greeting ((pair.proxy side).gConnections socket.peer) (ProxyPair.arriving link side) true = .duplicate := by
    unfold Proxy.greetingOn at verdict
    split at verdict
    · cases verdict
    next socket stored =>
      simp only at verdict
      split at verdict
      next phase => exact ⟨socket, stored, phase, Option.some.inj verdict⟩
      next => cases verdict
  have waits : ¬ ((pair.proxy side).gConnections socket.peer).isConnected := by
    rcases phase with phase | phase
    · exact not_connected _ phase (by decide)
    · exact not_connected _ phase (by decide)
  refine ⟨?_, ?_, ?_, ?_⟩
  · intro connected
    obtain ⟨other, present, connected⟩ := connected
    rw [Option.mem_def, stored] at present
    cases present
    exact waits connected
  · unfold Proxy.greeting at duplicate
    split at duplicate
    · cases duplicate
    next trackerId _ =>
      split at duplicate
      next already =>
        obtain ⟨m, found, present, connected, -⟩ := (ok.tabled side).connected.mp already
        exact ⟨m, connected_iff.mpr ⟨found, present, connected⟩⟩
      next =>
        split at duplicate
        · cases duplicate
        · split at duplicate <;> cases duplicate
  · intro other stored accepted
    rw [Option.mem_def, known] at stored
    cases stored
    rw [verdict] at accepted
    cases accepted
  · intro other present connected
    rw [Option.mem_def, stored] at present
    cases present
    exact absurd connected waits

theorem run_progress (distinct : ∀ side, id side.other ≠ id side) {first last : ProxyPair} {events : List PairEvent} (ok : PairOk id first)
    (run : Run ProxyPair.Step Careful first events last) : Progress id first last := by
  refine run.invariant (Progress id first) ?_ ⟨ok, fun _ _ connected => connected⟩
  intro before event after progress careful moved
  have next := step_progress distinct progress.ok careful moved
  exact ⟨next.ok, fun side n connected => next.stays side n (progress.stays side n connected)⟩

end Events

/-- Whenever a side closes a duplicate, it keeps another connection that the other side
does not close as a duplicate, now or later, if a side finishes a handshake only while
the other one has no other connection. -/
theorem duplicate_keeps_link {id : Side → UInt32} (distinct : id .left ≠ id .right) {events : List PairEvent} {pair after : ProxyPair}
    (run : Run ProxyPair.Step Careful (.start id) events pair) {side : Side} {n : Nat} (closes : pair.ClosesDuplicate side n)
    (moved : pair.Step (.read side n) after) :
    ∃ m, m ≠ n ∧ ∀ later last, Run ProxyPair.Step Careful after later last →
      last.Connected side m ∧ ¬ last.ClosesDuplicate side.other m := by
  have distinct : ∀ side : Side, id side.other ≠ id side := by
    intro side
    cases side
    · exact distinct.symm
    · exact distinct
  have before := run_progress distinct (start_ok id) run
  obtain ⟨unconnected, ⟨m, connected⟩, careful⟩ := before.ok.duplicate closes
  have step := step_progress distinct before.ok careful moved
  refine ⟨m, ?_, ?_⟩
  · rintro rfl
    exact unconnected connected
  · intro later last rest
    have progress := run_progress distinct step.ok rest
    have stays := progress.stays side m (step.stays side m connected)
    refine ⟨stays, ?_⟩
    intro again
    obtain ⟨apart, ⟨k, other⟩, -⟩ := progress.ok.duplicate again
    obtain rfl := progress.ok.single side side.other m k stays other
    exact apart other

def ids : Side → UInt32
  | .left => 1
  | .right => 2

def inTurn : List PairEvent :=
  [.reconnects .left, .accept .right 0, .write .left 0, .read .right 0, .read .left 0,
    .reconnects .right, .accept .left 1, .write .right 1]

theorem duplicate_keeps_link_in_turn : (inTurn.foldl ProxyPair.next (.start ids)).ClosesDuplicate .left 1 ∧
    ∃ m, m ≠ 1 ∧ ((inTurn.foldl ProxyPair.next (.start ids)).next (.read .left 1)).Connected .left m := by
  have careful : Along (fun pair event => Careful pair event ∧ pair.Enabled event) ProxyPair.next (.start ids) inTurn := by
    decide +kernel
  have run : Run ProxyPair.Step Careful _ _ _ := .along (fun _ _ admitted => ⟨admitted.1, admitted.2, rfl⟩) careful
  have closes : (inTurn.foldl ProxyPair.next (.start ids)).ClosesDuplicate .left 1 := by decide +kernel
  obtain ⟨m, apart, keeps⟩ := duplicate_keeps_link (by decide) run closes ⟨closes.1, rfl⟩
  exact ⟨closes, m, apart, (keeps [] _ (.done _)).1⟩

/-- Both proxies connect to each other, and each finishes the handshake of the connection
that it has accepted before it reads the answer on its own. -/
def crossing : List PairEvent :=
  [.reconnects .left, .reconnects .right, .accept .right 0, .accept .left 1, .write .left 0, .write .right 1,
    .read .right 0, .read .left 1]

def crossed : ProxyPair := crossing.foldl ProxyPair.next (.start ids)

/-- The left proxy closes connection 0 as a duplicate of connection 1, which the right
one then closes as a duplicate of connection 0. -/
theorem crossing_closes_both : Run ProxyPair.Step free (.start ids) crossing crossed ∧ crossed.ClosesDuplicate .left 0 ∧
    (∀ m < crossed.links.length, (crossed.next (.read .left 0)).Connected .left m → m = 1) ∧
    (crossed.next (.read .left 0)).ClosesDuplicate .right 1 ∧
    (∀ m < crossed.links.length, ¬ (([.read .left 0, .read .right 1, .read .left 1, .read .right 0] : List PairEvent).foldl
      ProxyPair.next crossed).Connected .left m) := by
  have enabled : Along ProxyPair.Enabled ProxyPair.next (.start ids) crossing := by decide +kernel
  refine ⟨.along (fun _ _ enabled => ⟨trivial, enabled, rfl⟩) enabled, ?_, ?_, ?_, ?_⟩
  all_goals decide +kernel

end BtServer.Proofs.ProxyHandshake
