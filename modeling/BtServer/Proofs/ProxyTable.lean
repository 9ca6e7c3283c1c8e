import BtServer.Proxy

/-! The table of connections over runs of a proxy. All handlers are made of a few moves;
a socket's cookie always points to an entry that is not disconnected and knows the
socket, so no entry is ever shared. -/

namespace BtServer.Proofs.ProxyTable
open Lib Relation

def direction (peer : ProxyPeer) : UInt8 := peer.state &&& flagOutgoing

section Phases
variable (peer : ProxyPeer)

theorem setPhase_spec (state : UInt8) : ∀ phase ∈ [flagDisconnected, flagConnecting, flagWaittrackerid, flagConnected],
      setPhase state phase &&& flagMask = phase ∧ setPhase state phase &&& flagOutgoing = state &&& flagOutgoing := by
  revert state
  exact forall_byte (by decide +kernel)

@[simp] theorem setPhase_disconnected (state : UInt8) : setPhase state flagDisconnected &&& flagMask = flagDisconnected :=
  (setPhase_spec state _ (by simp)).1

@[simp] theorem setPhase_connecting (state : UInt8) : setPhase state flagConnecting &&& flagMask = flagConnecting :=
  (setPhase_spec state _ (by simp)).1

@[simp] theorem setPhase_waittrackerid (state : UInt8) : setPhase state flagWaittrackerid &&& flagMask = flagWaittrackerid :=
  (setPhase_spec state _ (by simp)).1

@[simp] theorem setPhase_connected (state : UInt8) : setPhase state flagConnected &&& flagMask = flagConnected :=
  (setPhase_spec state _ (by simp)).1

@[simp] theorem reset_phase : peer.resetInfoBlock.phase = flagDisconnected := setPhase_disconnected peer.state

@[simp] theorem reset_outgoing : direction peer.resetInfoBlock = direction peer := (setPhase_spec peer.state _ (by simp)).2

theorem not_connected {phase : UInt8} (known : peer.phase = phase) (other : phase ≠ flagConnected) : ¬ peer.isConnected := by
  rw [ProxyPeer.isConnected, known]
  exact other

end Phases

inductive Move (proxy : Proxy) : Proxy → Prop where
  | forgotten (sock : Int) : Move proxy (proxy.ioClose sock)
  | closed {sock : Int} {socket : Socket} (known : proxy.sockets sock = some socket) : Move proxy (proxy.closePeer sock socket.peer)
  | begun {newfd : Int} {socket : Socket} (idle : (proxy.gConnections socket.peer).phase = flagDisconnected) :
      Move proxy ((proxy.setSocket newfd (some socket)).prepare socket.peer newfd)
  | waits {sock : Int} {socket wanted : Socket} (known : proxy.sockets sock = some socket) (same : wanted.peer = socket.peer) :
      Move proxy (proxy.setSocket sock (some wanted))
  | greeted {sock : Int} {socket wanted : Socket} (known : proxy.sockets sock = some socket) (same : wanted.peer = socket.peer) :
      Move proxy ((proxy.setSocket sock (some wanted)).setPeer socket.peer
        { proxy.gConnections socket.peer with state := setPhase (proxy.gConnections socket.peer).state flagWaittrackerid })
  | connected {sock : Int} {socket : Socket} {trackerId : UInt32} (known : proxy.sockets sock = some socket)
      (fresh : ¬ proxy.alreadyConnected trackerId) (foreign : trackerId ≠ proxy.gTrackerId) :
      Move proxy (proxy.setPeer socket.peer { proxy.gConnections socket.peer with
        trackerId := trackerId, state := setPhase (proxy.gConnections socket.peer).state flagConnected })
  | received (i : Fin maxPeers) (incoming : Incoming) :
      Move proxy (proxy.setPeer i { proxy.gConnections i with incoming := incoming })

section Moves
variable (proxy : Proxy)

theorem foldl_moves {α : Type} {turn : Proxy → α → Proxy} (moves : ∀ proxy item, ReflTransGen Move proxy (turn proxy item))
    (items : List α) : ReflTransGen Move proxy (items.foldl turn proxy) := by
  induction items generalizing proxy with
  | nil => exact .refl
  | cons item rest ih => exact (moves proxy item).trans (ih _)

theorem reconnect_moves (i : Fin maxPeers) (outcome : Connecting) : ReflTransGen Move proxy (proxy.reconnect i outcome) := by
  unfold Proxy.reconnect
  split
  next wanted =>
    have idle : (proxy.gConnections i).phase = flagDisconnected := by
      rw [ProxyPeer.phase, wanted.2]
      rfl
    cases outcome with
    | noSocket => exact .refl
    | connectFails => exact .refl
    | bindFails newfd => exact .single (.forgotten newfd)
    | begun newfd => exact .single (@Move.begun proxy newfd ⟨i, false, true⟩ idle)
  next => exact .refl

theorem freeSlot_state {proxy : Proxy} {i : Fin maxPeers} (free : proxy.freeSlot = some i) :
    (proxy.gConnections i).state = flagDisconnected := by
  have found := List.find?_some free
  exact of_decide_eq_true found

theorem acceptOne_moves (newfd : Int) (registered : Bool) : ReflTransGen Move proxy (proxy.acceptOne newfd registered) := by
  unfold Proxy.acceptOne
  split
  · split
    next => exact .refl
    next i free =>
      have idle : (proxy.gConnections i).phase = flagDisconnected := by
        rw [ProxyPeer.phase, freeSlot_state free]
        rfl
      exact .single (@Move.begun proxy newfd ⟨i, true, false⟩ idle)
  · exact .single (.forgotten newfd)

theorem greeting_accepted {proxy : Proxy} {peer : ProxyPeer} {outcome : TryRead} {written : Bool} {trackerId : UInt32}
    (accepted : proxy.greeting peer outcome written = .accepted trackerId) :
    Proxy.readTrackerId outcome = some trackerId ∧ ¬ proxy.alreadyConnected trackerId ∧ trackerId ≠ proxy.gTrackerId := by
  unfold Proxy.greeting at accepted
  split at accepted
  · cases accepted
  next read =>
    split at accepted
    · cases accepted
    next fresh =>
      split at accepted
      · cases accepted
      next foreign =>
        split at accepted
        · cases accepted
        · cases accepted
          exact ⟨read, fresh, foreign⟩

theorem readIndata_moves {sock : Int} {socket : Socket} (known : proxy.sockets sock = some socket) (outcome : TryRead) :
    ReflTransGen Move proxy (proxy.readIndata sock socket.peer outcome) := by
  unfold Proxy.readIndata
  cases outcome with
  | again => exact .refl
  | failed => exact .single (.closed known)
  | data bytes =>
    simp only
    split
    · exact .single (.closed known)
    · exact .single (.received _ _)

theorem handleRead_moves (sock : Int) (outcome : TryRead) (written : Bool) :
    ReflTransGen Move proxy (proxy.handleRead sock outcome written) := by
  unfold Proxy.handleRead
  split
  · exact .single (.forgotten sock)
  next socket known =>
    simp only
    split
    · exact .single (.forgotten sock)
    · split
      · split
        next trackerId accepted =>
          obtain ⟨-, fresh, foreign⟩ := greeting_accepted accepted
          exact .single (.connected known fresh foreign)
        all_goals exact .single (.closed known)
      · split
        · exact readIndata_moves proxy known outcome
        · exact .refl

theorem handleWrite_moves (sock : Int) (connected written : Bool) (sent : IobSend) :
    ReflTransGen Move proxy (proxy.handleWrite sock connected written sent) := by
  unfold Proxy.handleWrite
  split
  · exact .single (.forgotten sock)
  next socket known =>
    simp only
    split
    · split
      · exact .single (.closed known)
      · split
        · exact .single (.greeted known rfl)
        · exact .single (.closed known)
    · split
      · cases sent with
        | all => exact .single (.waits known rfl)
        | more => exact .refl
        | failed => exact .single (.closed known)
      · exact .single (.forgotten sock)

theorem handle_moves (event : ProxyEvent) : ReflTransGen Move proxy (proxy.handle event) := by
  cases event with
  | reconnects outcomes => exact foldl_moves proxy (fun proxy i => reconnect_moves proxy i (outcomes i)) _
  | accept arrivals => exact foldl_moves proxy (fun proxy arrival => acceptOne_moves proxy arrival.1 arrival.2) arrivals
  | read sock outcome written => exact handleRead_moves proxy sock outcome written
  | write sock connected written sent => exact handleWrite_moves proxy sock connected written sent

end Moves

structure Valid (proxy : Proxy) : Prop where
  distinct : ∀ i j, (proxy.gConnections i).isConnected → (proxy.gConnections j).isConnected →
    (proxy.gConnections i).trackerId = (proxy.gConnections j).trackerId → i = j
  foreign : ∀ i, (proxy.gConnections i).isConnected → (proxy.gConnections i).trackerId ≠ proxy.gTrackerId
  live : ∀ sock socket, proxy.sockets sock = some socket →
    (proxy.gConnections socket.peer).phase ≠ flagDisconnected ∧ (proxy.gConnections socket.peer).fd = sock

section Invariant
variable {proxy after : Proxy} {i : Fin maxPeers} {peer : ProxyPeer}

theorem Valid.setSocket (valid : Valid proxy) (sock : Int) {socket : Option Socket} (live : ∀ known, socket = some known →
      (proxy.gConnections known.peer).phase ≠ flagDisconnected ∧ (proxy.gConnections known.peer).fd = sock) :
    Valid (proxy.setSocket sock socket) := by
  refine ⟨valid.distinct, valid.foreign, ?_⟩
  intro other known stored
  by_cases same : other = sock
  · subst same
    exact live known (by simpa [Proxy.setSocket] using stored)
  · exact valid.live other known (by simpa [Proxy.setSocket, same] using stored)

theorem Valid.rewait (valid : Valid proxy) {sock : Int} {socket wanted : Socket} (known : proxy.sockets sock = some socket)
    (same : wanted.peer = socket.peer) : Valid (proxy.setSocket sock (some wanted)) := by
  refine valid.setSocket sock ?_
  intro other stored
  obtain rfl := Option.some.inj stored
  rw [same]
  exact valid.live sock socket known

@[simp] theorem setPeer_self : (proxy.setPeer i peer).gConnections i = peer := by simp [Proxy.setPeer]

@[simp] theorem setPeer_of_ne {j : Fin maxPeers} (other : j ≠ i) :
    (proxy.setPeer i peer).gConnections j = proxy.gConnections j := by simp [Proxy.setPeer, other]

theorem Valid.setPeer (valid : Valid proxy)
    (fresh : peer.isConnected → ¬ (∃ j, j ≠ i ∧ (proxy.gConnections j).isConnected ∧ (proxy.gConnections j).trackerId = peer.trackerId) ∧
      peer.trackerId ≠ proxy.gTrackerId)
    (live : ∀ sock socket, proxy.sockets sock = some socket → socket.peer = i → peer.phase ≠ flagDisconnected ∧ peer.fd = sock) :
    Valid (proxy.setPeer i peer) := by
  refine ⟨?_, ?_, ?_⟩
  · intro j k
    by_cases first : j = i <;> by_cases second : k = i
    · intro _ _ _
      rw [first, second]
    · subst first
      rw [setPeer_self, setPeer_of_ne second]
      intro connected other same
      exact absurd ⟨k, second, other, same.symm⟩ (fresh connected).1
    · subst second
      rw [setPeer_self, setPeer_of_ne first]
      intro other connected same
      exact absurd ⟨j, first, other, same⟩ (fresh connected).1
    · rw [setPeer_of_ne first, setPeer_of_ne second]
      exact valid.distinct j k
  · intro j
    by_cases same : j = i
    · subst same
      rw [setPeer_self]
      exact fun connected => (fresh connected).2
    · rw [setPeer_of_ne same]
      exact valid.foreign j
  · intro sock socket stored
    by_cases same : socket.peer = i
    · rw [same, setPeer_self]
      exact live sock socket stored same
    · rw [setPeer_of_ne same]
      exact valid.live sock socket stored

theorem Valid.advance (valid : Valid proxy) (fd : peer.fd = (proxy.gConnections i).fd)
    (phase : (proxy.gConnections i).phase ≠ flagDisconnected → peer.phase ≠ flagDisconnected)
    (fresh : peer.isConnected → ¬ (∃ j, j ≠ i ∧ (proxy.gConnections j).isConnected ∧ (proxy.gConnections j).trackerId = peer.trackerId) ∧
      peer.trackerId ≠ proxy.gTrackerId) : Valid (proxy.setPeer i peer) := by
  refine valid.setPeer fresh ?_
  intro sock socket stored same
  obtain ⟨busy, knows⟩ := valid.live sock socket stored
  rw [same] at busy knows
  exact ⟨phase busy, fd.trans knows⟩

theorem Move.valid (move : Move proxy after) (valid : Valid proxy) : Valid after := by
  cases move with
  | forgotten sock => exact valid.setSocket sock (by simp)
  | @closed sock socket known =>
    refine (valid.setSocket sock (by simp)).setPeer ?_ ?_
    · intro connected
      exact absurd connected (not_connected _ (reset_phase _) (by decide))
    · -- The entry knows its socket, which is closed now.
      intro other remaining stored same
      have apart : other ≠ sock := by
        rintro rfl
        simp [Proxy.setSocket] at stored
      have knows := (valid.live other remaining (by simpa [Proxy.setSocket, apart] using stored)).2
      rw [same, (valid.live sock socket known).2] at knows
      exact absurd knows.symm apart
  | @begun newfd socket idle =>
    have phase := setPhase_connecting (proxy.gConnections socket.peer).resetInfoBlock.state
    refine (valid.setPeer ?_ ?_).setSocket newfd ?_
    · intro connected
      exact absurd connected (not_connected _ phase (by decide))
    · intro sock other stored same
      exact absurd idle (same ▸ (valid.live sock other stored).1)
    · intro known same
      obtain rfl := Option.some.inj same
      rw [setPeer_self]
      refine ⟨?_, rfl⟩
      intro gone
      exact absurd (phase.symm.trans gone) (by decide)
  | waits known same => exact valid.rewait known same
  | @greeted sock socket wanted known same =>
    have phase := setPhase_waittrackerid (proxy.gConnections socket.peer).state
    refine (valid.rewait known same).advance rfl ?_ ?_
    · intro _ gone
      exact absurd (phase.symm.trans gone) (by decide)
    · intro connected
      exact absurd connected (not_connected _ phase (by decide))
  | @connected sock socket trackerId known fresh foreign =>
    have phase := setPhase_connected (proxy.gConnections socket.peer).state
    refine valid.advance rfl ?_ ?_
    · intro _ gone
      exact absurd (phase.symm.trans gone) (by decide)
    · intro _
      refine ⟨?_, foreign⟩
      intro other
      obtain ⟨j, -, connected, same⟩ := other
      exact fresh ⟨j, connected, same⟩
  | received i incoming =>
    refine valid.advance rfl id ?_
    intro connected
    refine ⟨?_, valid.foreign i connected⟩
    intro other
    obtain ⟨j, apart, also, same⟩ := other
    exact apart (valid.distinct j i also connected same)

/-- The direction of every entry, and what `main` has set, stay as they are. -/
structure Fixed (before after : Proxy) : Prop where
  direction : ∀ i, direction (after.gConnections i) = direction (before.gConnections i)
  gTrackerId : after.gTrackerId = before.gTrackerId

theorem Fixed.refl (proxy : Proxy) : Fixed proxy proxy := ⟨fun _ => rfl, rfl⟩

theorem Fixed.setPeer {before : Proxy} (fixed : Fixed before proxy)
    (same : ProxyTable.direction peer = ProxyTable.direction (proxy.gConnections i)) : Fixed before (proxy.setPeer i peer) := by
  refine ⟨?_, fixed.gTrackerId⟩
  intro j
  by_cases here : j = i
  · subst here
    rw [setPeer_self, same, fixed.direction]
  · rw [setPeer_of_ne here, fixed.direction]

theorem Fixed.setSocket (proxy : Proxy) (sock : Int) (socket : Option Socket) : Fixed proxy (proxy.setSocket sock socket) :=
  ⟨fun _ => rfl, rfl⟩

theorem Move.fixed (move : Move proxy after) : Fixed proxy after := by
  cases move with
  | forgotten sock => exact Fixed.setSocket proxy sock none
  | waits => exact Fixed.setSocket proxy _ _
  | closed => exact (Fixed.setSocket proxy _ none).setPeer (reset_outgoing _)
  | begun =>
    refine (Fixed.setSocket proxy _ _).setPeer ?_
    exact (setPhase_spec _ flagConnecting (by simp)).2.trans (reset_outgoing _)
  | greeted => exact (Fixed.setSocket proxy _ _).setPeer (setPhase_spec _ flagWaittrackerid (by simp)).2
  | connected => exact (Fixed.refl proxy).setPeer (setPhase_spec _ flagConnected (by simp)).2
  | received i incoming => exact (Fixed.refl proxy).setPeer rfl

theorem Fixed.trans {first middle last : Proxy} (former : Fixed first middle) (later : Fixed middle last) : Fixed first last :=
  ⟨fun i => (later.direction i).trans (former.direction i), later.gTrackerId.trans former.gTrackerId⟩

theorem moves_spec (moves : ReflTransGen Move proxy after) (valid : Valid proxy) : Valid after ∧ Fixed proxy after := by
  induction moves with
  | refl => exact ⟨valid, .refl _⟩
  | tail _ move ih => exact ⟨move.valid ih.1, ih.2.trans move.fixed⟩

theorem run_spec {first last : Proxy} {events : List ProxyEvent} (run : Run Proxy.Step free first events last) (valid : Valid first) :
    Valid last ∧ Fixed first last := by
  refine run.invariant (fun proxy => Valid proxy ∧ Fixed first proxy) ?_ ⟨valid, .refl _⟩
  intro before event after kept _ moved
  obtain ⟨valid, fixed⟩ := kept
  obtain ⟨valid', fixed'⟩ := moves_spec (moved ▸ handle_moves before event) valid
  exact ⟨valid', fixed.trans fixed'⟩

theorem start_valid (gTrackerId : UInt32) (count : Nat) : Valid (Proxy.start gTrackerId count) := by
  have idle : ∀ i, ¬ ((Proxy.start gTrackerId count).gConnections i).isConnected := by
    intro i
    simp only [Proxy.start, ProxyPeer.isConnected, ProxyPeer.phase]
    split <;> decide
  refine ⟨fun i _ connected => absurd connected (idle i), fun i connected => absurd connected (idle i), ?_⟩
  intro sock socket stored
  cases stored

end Invariant

section Accepting
variable {proxy : Proxy} {i : Fin maxPeers}

def Live (proxy : Proxy) (i : Fin maxPeers) : Prop := ∃ sock socket, proxy.sockets sock = some socket ∧ socket.peer = i

theorem acceptOne_keeps (busy : (proxy.gConnections i).state ≠ flagDisconnected) (newfd : Int) (registered : Bool) :
    (proxy.acceptOne newfd registered).gConnections i = proxy.gConnections i := by
  unfold Proxy.acceptOne
  split
  · split
    · rfl
    next j free =>
      have apart : i ≠ j := by
        rintro rfl
        exact busy (freeSlot_state free)
      exact setPeer_of_ne apart
  · rfl

theorem handleAccept_keeps (busy : (proxy.gConnections i).state ≠ flagDisconnected) (arrivals : List (Int × Bool)) :
    (proxy.handleAccept arrivals).gConnections i = proxy.gConnections i := by
  induction arrivals generalizing proxy with
  | nil => rfl
  | cons arrival rest ih =>
    have first := acceptOne_keeps busy arrival.1 arrival.2
    rw [← first] at busy
    exact (ih busy).trans first

end Accepting

/-- In every state of a proxy: connected entries have different ids, none of them the
proxy's own; the entries that are outgoing are the configured ones; and no connection
that is accepted gets the entry of a configured peer or of an open connection. -/
theorem connection_table {gTrackerId : UInt32} {count : Nat} {events : List ProxyEvent} {proxy : Proxy}
    (run : Run Proxy.Step free (Proxy.start gTrackerId count) events proxy) :
    (∀ i j, i ≠ j → (proxy.gConnections i).isConnected → (proxy.gConnections j).isConnected →
      (proxy.gConnections i).trackerId ≠ (proxy.gConnections j).trackerId) ∧
    (∀ i, (proxy.gConnections i).isConnected → (proxy.gConnections i).trackerId ≠ gTrackerId) ∧
    (∀ i : Fin maxPeers, (proxy.gConnections i).state &&& flagOutgoing = if i.val < count then flagOutgoing else 0) ∧
    (∀ arrivals, ∀ i : Fin maxPeers, i.val < count ∨ Live proxy i →
      (proxy.handleAccept arrivals).gConnections i = proxy.gConnections i) := by
  obtain ⟨valid, fixed⟩ := run_spec run (start_valid gTrackerId count)
  have bits : ∀ i : Fin maxPeers,
      (proxy.gConnections i).state &&& flagOutgoing = if i.val < count then flagOutgoing else 0 := by
    intro i
    refine (fixed.direction i).trans ?_
    simp only [Proxy.start, direction]
    split <;> decide
  refine ⟨?_, ?_, bits, ?_⟩
  · intro i j apart first second same
    exact apart (valid.distinct i j first second same)
  · intro i connected
    have foreign := valid.foreign i connected
    rwa [fixed.gTrackerId] at foreign
  · intro arrivals i taken
    refine handleAccept_keeps ?_ arrivals
    intro idle
    rcases taken with configured | ⟨sock, socket, stored, rfl⟩
    · have bit := bits i
      rw [idle, if_pos configured] at bit
      exact absurd bit (by decide)
    · refine (valid.live sock socket stored).1 ?_
      rw [ProxyPeer.phase, idle]
      rfl

/-- A proxy with one configured peer accepts a connection and is greeted with the id 7. -/
theorem connection_table_greeted :
    ∃ proxy, Run Proxy.Step free (Proxy.start 1 1) [.accept [(5, true)], .read 5 (.data [7, 0, 0, 0]) true] proxy ∧
      (proxy.gConnections 1).isConnected ∧ Live proxy 1 ∧ (proxy.gConnections 1).trackerId ≠ 1 ∧
      (proxy.handleAccept [(6, true)]).gConnections 0 = proxy.gConnections 0 := by
  have run : Run Proxy.Step free (Proxy.start 1 1) [.accept [(5, true)], .read 5 (.data [7, 0, 0, 0]) true] _ :=
    .next trivial rfl (.next trivial rfl (.done _))
  have connected : ((((Proxy.start 1 1).handle (.accept [(5, true)])).handle (.read 5 (.data [7, 0, 0, 0]) true)).gConnections
      1).isConnected := by
    decide
  obtain ⟨_, foreign, _, kept⟩ := connection_table run
  exact ⟨_, run, connected, ⟨5, ⟨1, true, false⟩, by decide, rfl⟩, foreign 1 connected, kept _ 0 (.inl (by decide))⟩

end BtServer.Proofs.ProxyTable
