import BtServer.Proofs.PeerAges

/-! Expiry of peers under a clock that never runs backwards. Every stored peer has a lower bound of the minute of its last
announce, so a sweep lets the expired ones go. An announce to a torrent that was idle for more than `OT_TORRENT_TIMEOUT` does
not sweep them. -/

namespace BtServer.Proofs.PeerExpiry
open Lib PeerListShape PeerListEdits Cleaning TorrentTable TrackerSteps TrackerInvariant PeerAges

variable {event : Event} {hash : Hash} {now : Int} {past events : List Event} {random : List Nat} {tracker : Tracker}
  {proto : Proto} {amount : Nat} {peerList : PeerList}

def Announcement (hash : Hash) (addr : Bytes) (event : Event) : Bool :=
  match event.call with
  | .announce _ announced peer _ _ => announced = hash && peer.addr = addr
  | _ => false

def lastAnnounce (hash : Hash) (addr : Bytes) (events : List Event) : Option Int :=
  (events.reverse.find? (Announcement hash addr)).map Event.now

def Ordered (events : List Event) : Prop := events.Pairwise fun earlier later => earlier.gNowSeconds ≤ later.gNowSeconds

/-- No announce finds peers in a torrent that has been idle for too long. -/
def Prompt (tracker : Tracker) (event : Event) : Prop :=
  match event.call with
  | .announce _ hash _ _ _ => ∀ peerList, Holds tracker hash peerList → peerList.peers.all ≠ [] →
      event.now - peerList.base ≤ otTorrentTimeout
  | _ => True

theorem lastAnnounce_snoc (hash : Hash) (addr : Bytes) (events : List Event) (event : Event) :
    lastAnnounce hash addr (events ++ [event]) =
      if Announcement hash addr event then some event.now else lastAnnounce hash addr events := by
  simp only [lastAnnounce, List.reverse_append, List.reverse_singleton, List.singleton_append, List.find?_cons]
  cases Announcement hash addr event <;> simp

theorem now_mono {earlier later : Event} (clock : earlier.gNowSeconds ≤ later.gNowSeconds) : earlier.now ≤ later.now :=
  Int.tdiv_le_tdiv (by omega) clock

private theorem lastAnnounce_le {addr : Bytes} {minute : Int}
    (last : lastAnnounce hash addr events = some minute) (past : ∀ event ∈ events, event.now ≤ now) : minute ≤ now := by
  obtain ⟨event, found, rfl⟩ := Option.map_eq_some_iff.mp last
  exact past event (by simpa using List.mem_of_find?_eq_some found)

/-- What is known of a torrent's peer list after the events in `past`. -/
structure Dated (past : List Event) (hash : Hash) (peerList : PeerList) : Prop where
  shaped : Shaped peerList.peers
  counted : peerList.peers.all.length ≤ peerList.peerCount
  age : ∀ peer ∈ peerList.peers.all, (peer.time.toNat : Int) < otPeerTimeout
  last : ∀ peer ∈ peerList.peers.all, ∃ minute, lastAnnounce hash peer.addr past = some minute ∧
    peerList.base - peer.time.toNat ≤ minute

namespace Dated
variable {past : List Event} {hash : Hash} {peerList : PeerList}

theorem zero (base : Int) (downCount : Nat) : Dated past hash { PeerList.zero with base := base, downCount := downCount } := by
  have empty : ∀ peer, ¬ peer ∈ PeerList.zero.peers.all := fun peer member => by
    rw [show PeerVector.all _ = [] from rfl] at member
    simp at member
  exact ⟨shaped_zero, le_refl _, fun peer member => absurd member (empty peer), fun peer member => absurd member (empty peer)⟩

variable (dated : Dated past hash peerList)
include dated

theorem timely (earlier : ∀ event ∈ past, event.now ≤ now) :
    Past now peerList := by
  intro peer member
  obtain ⟨minute, last, bound⟩ := dated.last peer member
  have before := lastAnnounce_le last earlier
  omega

theorem later (earlier : ∀ other ∈ past, other.now ≤ event.now) :
    Dated (past ++ [event]) hash peerList := by
  refine ⟨dated.shaped, dated.counted, dated.age, fun peer member => ?_⟩
  obtain ⟨minute, last, bound⟩ := dated.last peer member
  have before := lastAnnounce_le last earlier
  rw [lastAnnounce_snoc]
  split
  · exact ⟨_, rfl, by omega⟩
  · exact ⟨minute, last, bound⟩

theorem cleaned {now : Int} (earlier : ∀ event ∈ past, event.now ≤ now)
    {result : PeerList × Bool} (cleaned : Cleaned now peerList result) : Dated past hash result.1 := by
  have shaped := cleaned.shaped dated.shaped
  have counted := cleaned.counted dated.counted
  have young := (cleaned_young cleaned ⟨dated.shaped, dated.age⟩ (dated.timely earlier)).1
  refine ⟨shaped, counted, young.age, ?_⟩
  cases cleaned with
  | current same => exact dated.last
  | late idle => exact dated.last
  | vacant idle empty => exact dated.last
  | @swept peers remaining moved recent occupied left swept =>
    intro peer member
    have occupied : remaining ≠ 0 := by
      have some : 0 < peers.all.length := List.length_pos_of_mem member
      have enough : peers.all.length ≤ remaining := counted
      omega
    obtain ⟨old, inside, bound, rfl⟩ := swept_origin swept member
    obtain ⟨minute, last, before⟩ := dated.last old inside
    refine ⟨minute, last, ?_⟩
    have past := dated.timely earlier old inside
    rw [aged_time (by omega) bound]
    simp only [occupied, ne_eq, not_false_eq_true, if_true]
    omega

theorem stopped {peer : Peer} {result : PeerList} (stopped : Stopped peerList peer result) : Dated past hash result := by
  refine ⟨stopped.shaped dated.shaped, stopped.counted dated.counted, ?_, ?_⟩
  · intro other member
    exact dated.age other (stopped.members other member)
  · intro other member
    rw [stopped.base]
    exact dated.last other (stopped.members other member)

theorem cleaned_base {result : PeerList × Bool}
    (cleaned : Cleaned now peerList result) (prompt : peerList.peers.all ≠ [] → now - peerList.base ≤ otTorrentTimeout)
    (some : result.1.peers.all ≠ []) : result.1.base = now := by
  have counted := cleaned.counted dated.counted
  have positive := List.length_pos_iff.mpr some
  cases cleaned with
  | current same => exact (Int.sub_eq_zero.mp same).symm
  | late idle => exact absurd (prompt some) (by omega)
  | vacant idle empty =>
    have nothing : peerList.peerCount = 0 := empty
    simp only at counted positive
    omega
  | @swept peers remaining moved recent occupied left swept =>
    have enough : remaining ≠ 0 := by
      simp only at counted positive
      omega
    simp [enough]

theorem announced {event : Event} {proto : Proto} {peer : Peer} {amount : Nat}
    {random : List Nat} (call : event.call = .announce proto hash peer amount random)
    (earlier : ∀ other ∈ past, other.now ≤ event.now) (base : peerList.peers.all ≠ [] → peerList.base = event.now)
    {result : PeerList × Option (List StatsEvent)} (announced : Announced event.now peerList peer result) :
    Dated (past ++ [event]) hash result.1 := by
  have young := announced_young announced ⟨dated.shaped, dated.age⟩
  refine ⟨young.shaped, announced.counted dated.counted, young.age, fun other member => ?_⟩
  rw [announced.base]
  rcases announced.members other member with inside | ⟨same, zero⟩
  · obtain ⟨minute, last, bound⟩ := (dated.later earlier).last other inside
    rw [base (List.ne_nil_of_mem inside)] at bound
    exact ⟨minute, last, bound⟩
  · have itself : Announcement hash other.addr event = true := by simp [Announcement, call, same]
    exact ⟨event.now, by rw [lastAnnounce_snoc, if_pos itself], by omega⟩

end Dated

private theorem entering_dated {peer : Peer} (call : event.call = .announce proto hash peer amount random)
    (prompt : Prompt tracker event) (earlier : ∀ other ∈ past, other.now ≤ event.now)
    (before : ∀ hash peerList, Holds tracker hash peerList → Dated past hash peerList)
    (found : Option PeerList) (held : ∀ peerList, found = some peerList → Holds tracker hash peerList) (heap : Heap) :
    Dated past hash (entering heap event.now found) ∧
      ((entering heap event.now found).peers.all ≠ [] → (entering heap event.now found).base = event.now) := by
  cases found with
  | none =>
    refine ⟨Dated.zero 0 0, fun some => absurd ?_ some⟩
    rfl
  | some old =>
    have dated := before hash old (held old rfl)
    have cleaned := cleanSingleTorrent_cases heap event.now old dated.shaped
    have idle : old.peers.all ≠ [] → event.now - old.base ≤ otTorrentTimeout := by
      simp only [Prompt, call] at prompt
      exact prompt old (held old rfl)
    exact ⟨dated.cleaned earlier cleaned, dated.cleaned_base cleaned idle⟩

theorem effect_dated
    (prompt : Prompt tracker event) (earlier : ∀ other ∈ past, other.now ≤ event.now) (effect : Effect tracker event hash peerList)
    (before : ∀ hash peerList, Holds tracker hash peerList → Dated past hash peerList) :
    Dated (past ++ [event]) hash peerList := by
  cases effect with
  | kept held => exact (before _ _ held).later earlier
  | cleaned held cleans passes =>
    refine (cleanings_preserve (Dated past hash) (fun heap old dated => ?_) passes (before _ _ held)).later earlier
    exact dated.cleaned earlier (cleanSingleTorrent_cases heap event.now old dated.shaped)
  | created call heap =>
    obtain ⟨dated, base⟩ := entering_dated call prompt earlier before none (by simp) heap
    exact dated.announced call earlier base (announcePeer_cases heap _ _ _ dated.shaped)
  | @announced _ _ _ _ old call held first second =>
    obtain ⟨dated, base⟩ := entering_dated call prompt earlier before (some old) (by simpa using held) first
    exact dated.announced call earlier base (announcePeer_cases second _ _ _ dated.shaped)
  | @stopped proto peer random old call held =>
    have dated := before _ _ held
    exact (dated.stopped (stopPeer_cases old peer dated.shaped)).later earlier
  | restored call => exact Dated.zero _ _

private theorem Ordered.earlier (ordered : Ordered (past ++ [event])) :
    Ordered past ∧ ∀ other ∈ past, other.now ≤ event.now := by
  obtain ⟨first, _, across⟩ := List.pairwise_append.mp ordered
  exact ⟨first, fun other member => now_mono (across other member event (by simp))⟩

theorem lists_dated {final : Tracker} (run : Run Tracker.Step Prompt .initial events final) (ordered : Ordered events) :
    Housed final ∧ ∀ hash peerList, Holds final hash peerList → Dated events hash peerList := by
  have dated := lists_preserved (fun past hash peerList => Ordered past → Dated past hash peerList)
    (fun past before event hash peerList _ prompt dated effect ordered =>
      effect_dated prompt ordered.earlier.2 effect fun hash peerList held => dated hash peerList held ordered.earlier.1) run
  exact ⟨dated.1, fun hash peerList held => dated.2 hash peerList held ordered⟩

section Reply

private theorem entries_put (block : PeerBlock) (peer : Peer) (entry : Bytes) :
    entry ∈ (block.put peer).entries ↔ entry ∈ block.entries ∨ entry = peer.addr := by
  unfold PeerBlock.put PeerBlock.entries
  split <;> simp only [List.mem_append, List.mem_cons, List.not_mem_nil, or_false] <;> tauto

private theorem entries_all (peers : List Peer) (block : PeerBlock) (entry : Bytes)
    (member : entry ∈ (peers.foldl PeerBlock.put block).entries) :
    entry ∈ block.entries ∨ ∃ peer ∈ peers, peer.addr = entry := by
  induction peers generalizing block with
  | nil => exact .inl member
  | cons peer rest ih =>
    rcases ih (block.put peer) member with inside | ⟨other, inside, same⟩
    · rcases (entries_put block peer entry).mp inside with before | rfl
      · exact .inl before
      · exact .inr ⟨peer, by simp, rfl⟩
    · exact .inr ⟨other, by simp [inside], same⟩

private theorem entries_select {vectors : List (OtVector Peer)} {shiftedStep shift : Nat} (amount : Nat) {index offset : Nat}
    {block final : PeerBlock}
    (result : selectPeers vectors shiftedStep shift amount index offset random block = some final) (entry : Bytes)
    (member : entry ∈ final.entries) :
    entry ∈ block.entries ∨ ∃ peer ∈ vectors.flatMap OtVector.data, peer.addr = entry := by
  induction amount generalizing index offset random block with
  | zero =>
    cases result
    exact .inl member
  | succ amount ih =>
    simp only [selectPeers] at result
    split at result
    · cases result
    split at result
    · cases result
    next position offset sought =>
      split at result
      · cases result
      next peer found =>
        rcases ih result with inside | other
        · rcases (entries_put block peer entry).mp inside with before | rfl
          · exact .inl before
          · refine .inr ⟨peer, ?_, rfl⟩
            have stored := List.mem_of_getElem? found
            rw [List.getD_eq_getElem?_getD] at stored
            cases slot : vectors[position]? with
            | none => simp [slot, OtVector.empty] at stored
            | some vector =>
              rw [slot] at stored
              exact List.mem_flatMap.mpr ⟨vector, List.mem_of_getElem? slot, stored⟩
        · exact .inr other

theorem reply_entries {reply : Reply} (result : returnPeersForTorrent random peerList amount proto = some reply) (entry : Bytes)
    (member : entry ∈ reply.peers.entries) : ∃ peer ∈ peerList.peers.all, peer.addr = entry := by
  simp only [returnPeersForTorrent, Option.map_eq_some_iff] at result
  obtain ⟨block, filled, rfl⟩ := result
  simp only at member
  generalize (if amount > peerList.peerCount then peerList.peerCount else amount) = wanted at filled
  split at filled
  · cases filled
    simp [PeerBlock.empty, PeerBlock.entries] at member
  split at filled
  · cases filled
    exact (entries_all _ _ entry member).resolve_left (by simp [PeerBlock.empty, PeerBlock.entries])
  · simp only [returnPeersSelection] at filled
    split at filled
    · cases filled
    · exact (entries_select _ filled entry member).resolve_left (by simp [PeerBlock.empty, PeerBlock.entries])

end Reply

/-- When every announce of a run is prompt, whoever is stored in a torrent after a
successful announce, and so whoever is named in its reply, announced itself less
than `OT_PEER_TIMEOUT` minutes ago. -/
theorem expired_never_served {events : List Event} {final : Tracker} (run : Run Tracker.Step Prompt .initial events final)
    {event : Event} (prompt : Prompt final event) (ordered : Ordered (events ++ [event])) {served : Served}
    (result : final.served event = some served) :
    ∃ proto hash peer amount random, event.call = .announce proto hash peer amount random ∧
      Holds (final.apply event) hash served.peerList ∧
      (∀ stored ∈ served.peerList.peers.all, ∃ minute,
        lastAnnounce hash stored.addr (events ++ [event]) = some minute ∧ event.now - minute < otPeerTimeout) ∧
      ∀ reply, served.reply = some reply → ∀ entry ∈ reply.peers.entries, ∃ minute,
        lastAnnounce hash entry (events ++ [event]) = some minute ∧ event.now - minute < otPeerTimeout := by
  obtain ⟨before, earlier⟩ := ordered.earlier
  obtain ⟨housed, dated⟩ := lists_dated run before
  obtain ⟨proto, hash, peer, amount, random, found, first, second, call, held, announce, replied, after⟩ :=
    served_cases housed result
  obtain ⟨entered, base⟩ := entering_dated call prompt earlier dated found held first
  have announced := announcePeer_cases second event.now _ peer entered.shaped
  have final := entered.announced call earlier base announced
  have minute := announced.base
  rw [announce] at final minute
  have recent : ∀ stored ∈ served.peerList.peers.all, ∃ minute,
      lastAnnounce hash stored.addr (events ++ [event]) = some minute ∧ event.now - minute < otPeerTimeout := by
    intro stored member
    obtain ⟨last, announcement, bound⟩ := final.last stored member
    have age := final.age stored member
    simp only at minute bound
    exact ⟨last, announcement, by omega⟩
  refine ⟨proto, hash, peer, amount, random, call, after, recent, ?_⟩
  intro reply given entry member
  rw [replied] at given
  obtain ⟨stored, inside, rfl⟩ := reply_entries given entry member
  exact recent stored inside

theorem expired_never_served_second : ((Tracker.initial.apply (announceIn 0 1)).served (announceIn 10 2)).isSome ∧
      ∀ served, (Tracker.initial.apply (announceIn 0 1)).served (announceIn 10 2) = some served →
        ∀ stored ∈ served.peerList.peers.all, ∃ minute,
          lastAnnounce zeroHash stored.addr [announceIn 0 1, announceIn 10 2] = some minute ∧
          (announceIn 10 2).now - minute < otPeerTimeout := by
  have first : Prompt .initial (announceIn 0 1) := by
    intro peerList held
    simp [Holds, Tracker.initial, OtVector.empty] at held
  have second : Prompt (Tracker.initial.apply (announceIn 0 1)) (announceIn 10 2) := by
    intro peerList held _
    have member : _ ∈ [Torrent.mk zeroHash (some ⟨0, 0, 1, 0, ⟨.members [peerAt 1], 2⟩⟩)] := held
    obtain rfl : peerList = ⟨0, 0, 1, 0, ⟨.members [peerAt 1], 2⟩⟩ := by simpa using member
    decide
  have ordered : Ordered ([announceIn 0 1] ++ [announceIn 10 2]) := by simp [Ordered, announceIn]
  refine ⟨rfl, fun served result => ?_⟩
  obtain ⟨proto, hash, peer, amount, random, call, _, recent, _⟩ :=
    expired_never_served (.next first rfl (.done _)) second ordered result
  cases call
  exact recent

/-- A peer announces itself, and 1500 minutes later, before the cleaner has come
round, a second one does: it is given the first one, which is stored as new. -/
theorem expired_served : ∃ final served reply,
    Run Tracker.Step free .initial [announceIn 0 1] final ∧ final.served (announceIn 1500 2) = some served ∧
      peerAt 1 ∈ served.peerList.peers.all ∧ served.reply = some reply ∧ (peerAt 1).addr ∈ reply.peers.entries ∧
      lastAnnounce zeroHash (peerAt 1).addr [announceIn 0 1, announceIn 1500 2] = some 0 ∧
      ¬ (1500 - 0 : Int) < otPeerTimeout := by
  refine ⟨_, _, _, run_foldl _ _, rfl, ?_, rfl, ?_, ?_, ?_⟩ <;> decide

end BtServer.Proofs.PeerExpiry
