import BtServer.Proofs.ProxyTable
import BtServer.ProxyPair

/-! What the handlers of a proxy do to one end of a connection, when the event loop only
calls them for sockets that wait for the event: the end changes or goes away, and all
others stay. -/

namespace BtServer.Proofs.ProxyEnds
open Lib ProxyTable

structure End where
  peer : ProxyPeer
  wantRead : Bool
  wantWrite : Bool

def endOf (proxy : Proxy) (n : Nat) : Option End :=
  (proxy.sockets n).map fun socket => ⟨proxy.gConnections socket.peer, socket.wantRead, socket.wantWrite⟩

structure Tabled (proxy : Proxy) (links : Nat) : Prop where
  valid : Valid proxy
  used : ∀ i, (proxy.gConnections i).phase ≠ flagDisconnected → ∃ sock socket, proxy.sockets sock = some socket ∧ socket.peer = i
  numbered : ∀ sock socket, proxy.sockets sock = some socket → ∃ n : Nat, n < links ∧ sock = n

structure Effect (proxy after : Proxy) (links n : Nat) (result : Option End) : Prop where
  tabled : Tabled after links
  fixed : after.gTrackerId = proxy.gTrackerId ∧ after.gConnectionCount = proxy.gConnectionCount
  here : endOf after n = result
  there : ∀ m, m ≠ n → endOf after m = endOf proxy m

section Sockets
variable {proxy : Proxy} {links n : Nat} {socket : Socket}

theorem endOf_some {found : End} (present : endOf proxy n = some found) :
    ∃ socket, proxy.sockets n = some socket ∧ proxy.gConnections socket.peer = found.peer ∧
      socket.wantRead = found.wantRead ∧ socket.wantWrite = found.wantWrite := by
  obtain ⟨socket, known, same⟩ := Option.map_eq_some_iff.mp present
  cases same
  exact ⟨socket, known, rfl, rfl, rfl⟩

theorem endOf_none : endOf proxy n = none ↔ proxy.sockets n = none := Option.map_eq_none_iff

variable (tabled : Tabled proxy links)
include tabled

theorem Tabled.apart {other : Int} {second : Socket} (known : proxy.sockets n = some socket)
    (stored : proxy.sockets other = some second) (distinct : other ≠ n) : second.peer ≠ socket.peer := by
  intro same
  have first := (tabled.valid.live n socket known).2
  have last := (tabled.valid.live other second stored).2
  rw [same, first] at last
  exact distinct last.symm

theorem Tabled.grow : Tabled proxy (links + 1) := by
  refine ⟨tabled.valid, tabled.used, ?_⟩
  intro sock socket stored
  obtain ⟨n, bound, same⟩ := tabled.numbered sock socket stored
  exact ⟨n, by omega, same⟩

theorem Tabled.fresh : endOf proxy links = none := by
  rw [endOf_none, Option.eq_none_iff_forall_ne_some]
  intro socket stored
  obtain ⟨n, bound, same⟩ := tabled.numbered _ socket stored
  omega

theorem Tabled.connected {trackerId : UInt32} : proxy.alreadyConnected trackerId ↔
      ∃ n found, endOf proxy n = some found ∧ found.peer.isConnected ∧ found.peer.trackerId = trackerId := by
  constructor
  · intro already
    obtain ⟨i, connected, same⟩ := already
    have busy : (proxy.gConnections i).phase ≠ flagDisconnected := by
      rw [show (proxy.gConnections i).phase = flagConnected from connected]
      decide
    obtain ⟨sock, socket, stored, rfl⟩ := tabled.used i busy
    obtain ⟨n, -, rfl⟩ := tabled.numbered sock socket stored
    exact ⟨n, _, by rw [endOf, stored]; rfl, connected, same⟩
  · intro ends
    obtain ⟨n, found, present, connected, same⟩ := ends
    obtain ⟨socket, -, peer, -, -⟩ := endOf_some present
    exact ⟨socket.peer, by rw [peer]; exact connected, by rw [peer]; exact same⟩

end Sockets

section Effects
variable {proxy : Proxy} {links n : Nat} {socket : Socket} {peer : ProxyPeer}
variable (tabled : Tabled proxy links)
include tabled

private theorem replaced_effect {more : Nat} {i : Fin maxPeers} {found : Option Socket}
    (grows : links ≤ more) (bound : n < more) (mine : ∀ known, proxy.sockets n = some known → known.peer = i)
    (others : ∀ (sock : Int) other, sock ≠ n → proxy.sockets sock = some other → other.peer ≠ i)
    (target : ∀ known, found = some known → known.peer = i) (gone : found = none → peer.phase = flagDisconnected)
    (valid : Valid ((proxy.setSocket n found).setPeer i peer)) :
    Effect proxy ((proxy.setSocket n found).setPeer i peer) more n
      (found.map fun socket => ⟨peer, socket.wantRead, socket.wantWrite⟩) := by
  have stored : ((proxy.setSocket n found).setPeer i peer).sockets n = found := by simp [Proxy.setPeer, Proxy.setSocket]
  have elsewhere : ∀ {sock : Int}, sock ≠ n → ((proxy.setSocket n found).setPeer i peer).sockets sock = proxy.sockets sock := by
    intro sock apart
    simp [Proxy.setPeer, Proxy.setSocket, apart]
  refine ⟨⟨valid, ?_, ?_⟩, ⟨rfl, rfl⟩, ?_, ?_⟩
  · intro j busy
    by_cases same : j = i
    · subst same
      rw [setPeer_self] at busy
      obtain ⟨known, present⟩ := Option.ne_none_iff_exists'.mp fun none => busy (gone none)
      exact ⟨n, known, by rw [stored, present], target known present⟩
    · rw [setPeer_of_ne same] at busy
      obtain ⟨sock, other, present, rfl⟩ := tabled.used j busy
      have apart : sock ≠ n := by
        rintro rfl
        exact same (mine other present)
      exact ⟨sock, other, by rw [elsewhere apart, present], rfl⟩
  · intro sock other present
    by_cases same : sock = n
    · exact ⟨n, bound, same⟩
    · rw [elsewhere same] at present
      obtain ⟨m, known, rfl⟩ := tabled.numbered sock other present
      exact ⟨m, by omega, rfl⟩
  · rw [endOf, stored]
    cases found with
    | none => rfl
    | some known => simp only [Option.map_some, target known rfl, setPeer_self]
  · intro m apart
    have apart : (m : Int) ≠ n := by omega
    rw [endOf, elsewhere apart, endOf]
    cases present : proxy.sockets m with
    | none => rfl
    | some other => simp only [Option.map_some, setPeer_of_ne (others m other apart present), Proxy.setSocket]

theorem begun_effect (socket : Socket) {more : Nat} (grows : links ≤ more) (bound : n < more)
    (free : proxy.sockets n = none) (idle : (proxy.gConnections socket.peer).phase = flagDisconnected) :
    Effect proxy ((proxy.setSocket n (some socket)).prepare socket.peer n) more n
      (some ⟨{ (proxy.gConnections socket.peer).resetInfoBlock with
        fd := n, state := setPhase (proxy.gConnections socket.peer).resetInfoBlock.state flagConnecting },
        socket.wantRead, socket.wantWrite⟩) := by
  have move : Move proxy ((proxy.setSocket n (some socket)).prepare socket.peer n) := .begun idle
  refine replaced_effect tabled grows bound ?_ ?_ ?_ nofun (move.valid tabled.valid)
  · intro known present
    rw [free] at present
    cases present
  · intro sock other _ present same
    exact (tabled.valid.live sock other present).1 (same ▸ idle)
  · intro known same
    rw [Option.some.inj same]

variable (known : proxy.sockets n = some socket)
include known

theorem Tabled.bound : n < links := by
  obtain ⟨m, bound, same⟩ := tabled.numbered n socket known
  omega

theorem closed_effect :
    Effect proxy (proxy.closePeer n socket.peer) links n none := by
  have move : Move proxy (proxy.closePeer n socket.peer) := .closed known
  refine replaced_effect tabled le_rfl (tabled.bound known) ?_ ?_ nofun (fun _ => reset_phase _) (move.valid tabled.valid)
  · intro other present
    rw [Option.some.inj (known.symm.trans present)]
  · intro sock other apart present
    exact tabled.apart known present apart

theorem advance_effect (wanted : Socket)
    (same : wanted.peer = socket.peer) (move : Move proxy ((proxy.setSocket n (some wanted)).setPeer socket.peer peer)) :
    Effect proxy ((proxy.setSocket n (some wanted)).setPeer socket.peer peer) links n
      (some ⟨peer, wanted.wantRead, wanted.wantWrite⟩) := by
  refine replaced_effect tabled le_rfl (tabled.bound known) ?_ ?_ ?_ nofun (move.valid tabled.valid)
  · intro other present
    rw [Option.some.inj (known.symm.trans present)]
  · intro sock other apart present
    exact tabled.apart known present apart
  · intro other present
    rw [← Option.some.inj present, same]

theorem entry_effect (move : Move proxy (proxy.setPeer socket.peer peer)) :
    Effect proxy (proxy.setPeer socket.peer peer) links n (some ⟨peer, socket.wantRead, socket.wantWrite⟩) := by
  have same : proxy.setSocket n (some socket) = proxy := by rw [Proxy.setSocket, ← known, Function.update_eq_self]
  have effect : Effect proxy ((proxy.setSocket n (some socket)).setPeer socket.peer peer) links n _ :=
    advance_effect tabled known socket rfl (by rwa [same])
  rwa [same] at effect

theorem wait_effect {wanted : Socket} (same : wanted.peer = socket.peer) :
    Effect proxy (proxy.setSocket n (some wanted)) links n
      (some ⟨proxy.gConnections socket.peer, wanted.wantRead, wanted.wantWrite⟩) := by
  have entry : (proxy.setSocket n (some wanted)).setPeer socket.peer (proxy.gConnections socket.peer) =
      proxy.setSocket n (some wanted) := by
    rw [Proxy.setPeer, Proxy.setSocket, Function.update_eq_self]
  have effect : Effect proxy ((proxy.setSocket n (some wanted)).setPeer socket.peer (proxy.gConnections socket.peer)) links n _ :=
    advance_effect tabled known wanted same (by rw [entry]; exact .waits known same)
  rwa [entry] at effect

end Effects

section Handlers
variable {proxy : Proxy} {links n : Nat} {found : End} {outcome : TryRead}
variable (tabled : Tabled proxy links) (present : endOf proxy n = some found)
include tabled present

theorem handleWrite_greets (phase : found.peer.phase = flagConnecting) :
    Effect proxy (proxy.handleWrite n true true .all) links n
      (some ⟨{ found.peer with state := setPhase found.peer.state flagWaittrackerid }, true, false⟩) := by
  obtain ⟨socket, known, peer, -, -⟩ := endOf_some present
  have effect := advance_effect tabled known { socket with wantRead := true, wantWrite := false } rfl (.greeted known rfl)
  simpa [Proxy.handleWrite, known, peer, phase] using effect

theorem handleWrite_sends (connected : found.peer.isConnected) :
    Effect proxy (proxy.handleWrite n true true .all) links n (some { found with wantWrite := false }) := by
  obtain ⟨socket, known, peer, reads, -⟩ := endOf_some present
  have phase : found.peer.phase = flagConnected := connected
  have effect := wait_effect tabled known (show Socket.peer { socket with wantWrite := false } = socket.peer from rfl)
  have other : flagConnected ≠ flagConnecting := by decide
  simpa [Proxy.handleWrite, known, peer, phase, reads, other] using effect

theorem handleRead_closes (phase : found.peer.phase = flagConnecting ∨ found.peer.phase = flagWaittrackerid)
    (refused : (proxy.greeting found.peer outcome true).isAccepted = false) :
    Effect proxy (proxy.handleRead n outcome true) links n none := by
  obtain ⟨socket, known, peer, -, -⟩ := endOf_some present
  have busy : found.peer.phase ≠ flagDisconnected := by
    rcases phase with phase | phase <;> rw [phase] <;> decide
  have handled : proxy.handleRead n outcome true = proxy.closePeer n socket.peer := by
    simp only [Proxy.handleRead, known, peer, busy, phase, if_false, if_true]
    split
    next accepted => simp [accepted, Greeting.isAccepted] at refused
    all_goals rfl
  rw [handled]
  exact closed_effect tabled known

theorem handleRead_accepts (phase : found.peer.phase = flagConnecting ∨ found.peer.phase = flagWaittrackerid) {trackerId : UInt32}
    (accepted : proxy.greeting found.peer outcome true = .accepted trackerId) :
    Effect proxy (proxy.handleRead n outcome true) links n
      (some { found with peer := { found.peer with trackerId := trackerId, state := setPhase found.peer.state flagConnected } }) := by
  obtain ⟨socket, known, peer, reads, writes⟩ := endOf_some present
  have busy : found.peer.phase ≠ flagDisconnected := by
    rcases phase with phase | phase <;> rw [phase] <;> decide
  obtain ⟨-, fresh, foreign⟩ := greeting_accepted accepted
  have handled : proxy.handleRead n outcome true = proxy.setPeer socket.peer { proxy.gConnections socket.peer with
      trackerId := trackerId, state := setPhase (proxy.gConnections socket.peer).state flagConnected } := by
    simp only [Proxy.handleRead, known, peer, busy, phase, if_false, if_true, accepted]
  rw [handled, ← peer, ← reads, ← writes]
  exact entry_effect tabled known (.connected known fresh foreign)

theorem handleRead_receives (connected : found.peer.isConnected)
    {message : Bytes} (full : message ≠ []) (room : found.peer.incoming.indata.length < indataSize) :
    ∃ incoming, Effect proxy (proxy.handleRead n (.data message) true) links n
      (some { found with peer := { found.peer with incoming := incoming } }) := by
  obtain ⟨socket, known, peer, reads, writes⟩ := endOf_some present
  have phase : found.peer.phase = flagConnected := connected
  have taken : message.take (indataSize - found.peer.incoming.indata.length) ≠ [] := by
    simp only [ne_eq, List.take_eq_nil_iff, not_or]
    exact ⟨by omega, full⟩
  obtain ⟨incoming, handled⟩ : ∃ incoming, proxy.handleRead n (.data message) true =
      proxy.setPeer socket.peer { proxy.gConnections socket.peer with incoming := incoming } := by
    refine ⟨(processIndata { found.peer.incoming with
      indata := found.peer.incoming.indata ++ message.take (indataSize - found.peer.incoming.indata.length) }).incoming, ?_⟩
    have notIdle : flagConnected ≠ flagDisconnected := by decide
    have notGreeting : ¬ (flagConnected = flagConnecting ∨ flagConnected = flagWaittrackerid) := by decide
    simp only [Proxy.handleRead, known, peer, phase, notIdle, notGreeting, if_false, if_true, Proxy.readIndata, taken]
  rw [handled, ← peer, ← reads, ← writes]
  exact ⟨incoming, entry_effect tabled known (.received socket.peer incoming)⟩

end Handlers

section Connections
variable {proxy : Proxy} {links n : Nat}

theorem handleReconnects_eq (count : proxy.gConnectionCount = 1) (newfd : Int) :
    proxy.handleReconnects (fun _ => .begun newfd) =
      if (proxy.gConnections 0).needsConnect then (proxy.setSocket newfd (some ⟨0, false, true⟩)).prepare 0 newfd else proxy := by
  have others : ∀ (entries : List (Fin 19)) (proxy : Proxy), proxy.gConnectionCount = 1 →
      (entries.map Fin.succ).foldl (fun proxy i => proxy.reconnect i (.begun newfd)) proxy = proxy := by
    intro entries
    induction entries with
    | nil => intro proxy _; rfl
    | cons i rest ih =>
      intro proxy count
      have skipped : proxy.reconnect i.succ (.begun newfd) = proxy := by simp [Proxy.reconnect, count]
      rw [List.map_cons, List.foldl_cons, skipped, ih proxy count]
  have split : List.finRange maxPeers = 0 :: (List.finRange 19).map Fin.succ := List.finRange_succ
  rw [Proxy.handleReconnects, split, List.foldl_cons]
  by_cases needs : (proxy.gConnections 0).needsConnect
  · have first : proxy.reconnect 0 (.begun newfd) = (proxy.setSocket newfd (some ⟨0, false, true⟩)).prepare 0 newfd := by
      simp [Proxy.reconnect, count, needs]
    rw [first, if_pos needs]
    exact others _ _ count
  · have first : proxy.reconnect 0 (.begun newfd) = proxy := by simp [Proxy.reconnect, needs]
    rw [first, if_neg needs]
    exact others _ _ count

theorem handleReconnects_begins (tabled : Tabled proxy links) (count : proxy.gConnectionCount = 1)
    (needs : (proxy.gConnections 0).needsConnect) :
    ∃ peer, peer.state = flagOutgoing ||| flagConnecting ∧
      Effect proxy (proxy.handleReconnects fun _ => .begun links) (links + 1) links (some ⟨peer, false, true⟩) := by
  have state : (proxy.gConnections 0).state = flagOutgoing := needs
  have idle : (proxy.gConnections 0).phase = flagDisconnected := by
    rw [ProxyPeer.phase, state]
    rfl
  rw [handleReconnects_eq count, if_pos needs]
  refine ⟨_, ?_, begun_effect tabled ⟨0, false, true⟩ (Nat.le_succ _) (Nat.lt_succ_self _)
    (endOf_none.mp tabled.fresh) idle⟩
  simp only [ProxyPeer.resetInfoBlock, state]
  rfl

theorem handleAccept_effect (tabled : Tabled proxy links) (bound : n < links) (free : endOf proxy n = none) :
    (∃ peer, peer.state = flagConnecting ∧ Effect proxy (proxy.handleAccept [(↑n, true)]) links n (some ⟨peer, true, false⟩)) ∨
    Effect proxy (proxy.handleAccept [(↑n, true)]) links n none := by
  simp only [Proxy.handleAccept, List.foldl_cons, List.foldl_nil, Proxy.acceptOne, if_true]
  cases slot : proxy.freeSlot with
  | none => exact .inr ⟨tabled, ⟨rfl, rfl⟩, free, fun _ _ => rfl⟩
  | some i =>
    have state := freeSlot_state slot
    have idle : (proxy.gConnections i).phase = flagDisconnected := by
      rw [ProxyPeer.phase, state]
      rfl
    refine .inl ⟨_, ?_, begun_effect tabled ⟨i, true, false⟩ le_rfl bound (endOf_none.mp free) idle⟩
    simp only [ProxyPeer.resetInfoBlock, state]
    rfl

end Connections

end BtServer.Proofs.ProxyEnds
