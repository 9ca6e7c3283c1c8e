import BtServer.Proofs.LiveTold
import BtServer.Proofs.PeerExpiry
import BtServer.Proofs.PeerSelection
import BtServer.Proofs.PeerStays

/-! Whom a tracker names. A reply to an announce names only peers whose last word about the torrent was an announce of less than
`OT_PEER_TIMEOUT` minutes ago, and when it has room for all peers of the torrent it names all of them. -/

namespace BtServer.Proofs.PeerDiscovery
open Lib PeerListInvariant PeerMapEdits TrackerSteps TrackerInvariant TrackerRefinement Completions PeerAges PeerExpiry
open LiveTold PeerSelection PeerStays

section Words
variable {hash : Hash} {addr : Bytes} {events : List Event} {event : Event}

def Farewell (hash : Hash) (addr : Bytes) (event : Event) : Bool :=
  match event.call with
  | .stop _ stopped peer _ => stopped = hash && peer.addr = addr
  | _ => false

def hear (hash : Hash) (addr : Bytes) (last : Option Int) (event : Event) : Option Int :=
  if Announcement hash addr event then some event.now else if Farewell hash addr event then none else last

/-- When the peer has announced itself for the torrent, unless it has stopped since. -/
def heard (hash : Hash) (addr : Bytes) (events : List Event) : Option Int := events.foldl (hear hash addr) none

def Alive (hash : Hash) (addr : Bytes) (events : List Event) (now : Int) : Prop :=
  ∃ minute, heard hash addr events = some minute ∧ now < minute + otPeerTimeout

instance (hash : Hash) (addr : Bytes) (events : List Event) (now : Int) : Decidable (Alive hash addr events now) :=
  decidable_of_iff ((heard hash addr events).any fun minute => now < minute + otPeerTimeout) (by simp [Alive, Option.any_eq_true])

theorem heard_snoc (hash : Hash) (addr : Bytes) (events : List Event) (event : Event) :
    heard hash addr (events ++ [event]) = hear hash addr (heard hash addr events) event := by
  simp only [heard, List.foldl_append, List.foldl_cons, List.foldl_nil]

theorem heard_last {minute : Int} (said : heard hash addr events = some minute) : lastAnnounce hash addr events = some minute := by
  induction events using List.reverseRecOn with
  | nil => cases said
  | append_singleton events event ih =>
    rw [heard_snoc, hear] at said
    rw [lastAnnounce_snoc]
    split_ifs at said ⊢
    · exact said
    · exact ih said

theorem announcement_call (announces : Announcement hash addr event) :
    ∃ proto peer amount random, event.call = .announce proto hash peer amount random ∧ peer.addr = addr := by
  cases call : event.call <;> simp_all [Announcement]

theorem farewell_call (stops : Farewell hash addr event) :
    ∃ proto peer random, event.call = .stop proto hash peer random ∧ peer.addr = addr := by
  cases call : event.call <;> simp_all [Farewell]

end Words

section Runs
variable {hash : Hash} {addr : Bytes} {past events : List Event} {tracker : Tracker} {event : Event}

/-- There is memory for every announce, and none of them comes to peers that nobody has looked after for a day. -/
structure Attended (tracker : Tracker) (event : Event) : Prop where
  bounded : Bounded tracker event
  prompt : Prompt tracker event
  served : ∀ {hash addr}, Announcement hash addr event → (tracker.served event).isSome

/-- The store has the peer as long as it is alive, and no longer after it has stopped. -/
structure Followed (hash : Hash) (addr : Bytes) (past : List Event) (tracker : Tracker) : Prop where
  tidy : Tidy tracker
  present : ∀ {minute now}, heard hash addr past = some minute → (∀ event ∈ past, event.now ≤ now) →
    now < minute + otPeerTimeout → Stays tracker hash addr minute now
  absent : heard hash addr past = none → tracker.toMap hash addr = none

theorem Followed.step (followed : Followed hash addr past tracker) (earlier : ∀ other ∈ past, other.now ≤ event.now)
    (attended : Attended tracker event) : Followed hash addr (past ++ [event]) (tracker.apply event) := by
  have again := tidy_apply followed.tidy attended.bounded
  by_cases announces : Announcement hash addr event
  · have now : heard hash addr (past ++ [event]) = some event.now := by rw [heard_snoc, hear, if_pos announces]
    obtain ⟨proto, peer, amount, random, call, rfl⟩ := announcement_call announces
    have stays := stays_announce followed.tidy attended.bounded call (attended.served announces)
    refine ⟨again, fun said reached _ => ?_, fun nothing => ?_⟩
    · cases now.symm.trans said
      exact stays.later (reached event (by simp))
    · cases now.symm.trans nothing
  by_cases stops : Farewell hash addr event
  · have gone : heard hash addr (past ++ [event]) = none := by rw [heard_snoc, hear, if_neg announces, if_pos stops]
    obtain ⟨proto, peer, random, call, rfl⟩ := farewell_call stops
    refine ⟨again, fun said _ _ => ?_, fun _ => ?_⟩
    · cases gone.symm.trans said
    · rw [(stop_refines followed.tidy attended.bounded call).1, PeerMap.stop, Function.update_self]
  · have same : heard hash addr (past ++ [event]) = heard hash addr past := by
      rw [heard_snoc, hear, if_neg announces, if_neg stops]
    refine ⟨again, fun {minute now} said reached recent => ?_, fun nothing => ?_⟩
    · have before := reached event (by simp)
      have stays := followed.present (same ▸ said) earlier (by omega)
      refine (stays_apply followed.tidy attended.bounded stays (le_refl _) (by omega) ?_).later before
      intro proto peer random call equal
      exact stops (by simp [Farewell, call, equal])
    · apply absent_apply followed.tidy attended.bounded (followed.absent (same ▸ nothing))
      intro proto peer amount random call equal
      exact announces (by simp [Announcement, call, equal])

theorem run_followed (hash : Hash) (addr : Bytes) (run : Run Tracker.Step Attended .initial events tracker)
    (ordered : Ordered events) : Followed hash addr events tracker := by
  refine run.history (fun past tracker => Ordered past → Followed hash addr past tracker) ?_ ?_ ordered
  · rintro past before event after kept attended rfl ordered
    obtain ⟨first, _, across⟩ := List.pairwise_append.mp ordered
    exact (kept first).step (fun other member => now_mono (across other member event (by simp))) attended
  · intro _
    refine ⟨run_tidy (.done _), fun said _ _ => ?_, fun _ => rfl⟩
    cases said

theorem announcePeer_base (heap : Heap) (now : Int) (peerList : PeerList) (peer : Peer) :
    (announcePeer heap now peerList peer).1.base = now := by
  simp only [announcePeer]
  split
  · rfl
  split
  · rfl
  split <;> rfl

theorem reply_all {peerList : PeerList} (sound : Sound peerList) {amount : Nat} (enough : peerList.peerCount ≤ amount)
    (random : List Nat) (proto : Proto) :
    ∃ reply, returnPeersForTorrent random peerList amount proto = some reply ∧
      reply.peers.entries.Perm (peerList.peers.all.map Peer.addr) := by
  have cut : (if amount > peerList.peerCount then peerList.peerCount else amount) = peerList.peerCount := by
    split <;> omega
  simp only [returnPeersForTorrent, cut, if_true]
  by_cases none : peerList.peerCount = 0
  · rw [if_pos none, List.eq_nil_of_length_eq_zero (sound.peerCount.symm.trans none)]
    exact ⟨_, rfl, .nil⟩
  · rw [if_neg none]
    exact ⟨_, rfl, entries_perm peerList.peers.all peerList.peerCount⟩

/-- Under a clock that does not run backwards, nobody is named in a reply who is not alive, and a reply with room for all peers
of the torrent names everybody who is, and nobody twice. -/
theorem replies_name_living (run : Run Tracker.Step Attended .initial events tracker) (attended : Attended tracker event)
    (ordered : Ordered (events ++ [event])) {proto : Proto} {peer : Peer} {amount : Nat} {random : List Nat}
    (call : event.call = .announce proto hash peer amount random) {served : Served} (result : tracker.served event = some served) :
    (∀ reply, served.reply = some reply → ∀ addr ∈ reply.peers.entries, Alive hash addr (events ++ [event]) event.now) ∧
      (served.peerList.peerCount ≤ amount → ∃ reply, served.reply = some reply ∧ reply.peers.entries.Nodup ∧
        ∀ addr, Alive hash addr (events ++ [event]) event.now → addr ∈ reply.peers.entries) := by
  have housed := (run_tidy (run.weaken fun _ _ attended => attended.bounded)).housed
  have run := run.snoc attended rfl
  have tidy := (run_followed hash [] run ordered).tidy
  obtain ⟨_, _, _, _, _, found, first, second, same, _, announce, replied, held⟩ := served_cases housed result
  cases call.symm.trans same
  have sound := tidy.sound hash served.peerList held
  have dated := (lists_dated (run.weaken fun _ _ attended => attended.prompt) ordered).2 hash served.peerList held
  have base : served.peerList.base = event.now := by
    rw [← announcePeer_base second event.now (TorrentTable.entering first event.now found) peer, announce]
  refine ⟨fun reply given addr named => ?_, fun enough => ?_⟩
  · rw [replied] at given
    obtain ⟨stored, inside, rfl⟩ := reply_entries given addr named
    obtain ⟨minute, last, bound⟩ := dated.last stored inside
    have age := dated.age stored inside
    cases said : heard hash stored.addr (events ++ [event]) with
    | none =>
      have missing := (run_followed hash stored.addr run ordered).absent said
      rw [toMap_eq tidy held, toMap_of_mem sound inside] at missing
      cases missing
    | some heard =>
      cases (heard_last said).symm.trans last
      exact ⟨minute, said, by omega⟩
  · obtain ⟨reply, given, listed⟩ := reply_all sound enough random proto
    refine ⟨reply, replied.trans given, listed.nodup_iff.mpr (addrs_distinct sound), ?_⟩
    rintro addr ⟨minute, said, recent⟩
    have reached : ∀ other ∈ events ++ [event], other.now ≤ event.now := by
      intro other member
      rcases List.mem_append.mp member with before | itself
      · exact now_mono ((List.pairwise_append.mp ordered).2.2 other before event (by simp))
      · rw [List.mem_singleton.mp itself]
    obtain ⟨peerList, stored, -, flag, age, inside, -⟩ := (run_followed hash addr run ordered).present said reached recent
    cases ((find_eq_some tidy).mpr held).symm.trans stored
    obtain ⟨peer, member, rfl, -⟩ := (toMap_eq_some sound).mp inside
    exact listed.mem_iff.mpr (List.mem_map_of_mem member)

def leaving : Event := ⟨3060, [], .stop .udp zeroHash (peerAt 5) []⟩

def asking : Event := ⟨3120, [], .announce .udp zeroHash (peerAt 4) 9 []⟩

/-- Of the six peers one has expired and one has stopped when the last one asks for the others. -/
theorem replies_name_living_visits : ∃ tracker reply, Run Tracker.Step Attended .initial (visits ++ [leaving]) tracker ∧
    (tracker.served asking).bind Served.reply = some reply ∧ reply.peers.entries.Nodup ∧
    (∀ i ∈ [4, 7, 9], (peerAt i).addr ∈ reply.peers.entries) ∧ ∀ i ∈ [3, 5], (peerAt i).addr ∉ reply.peers.entries := by
  have attended : ∀ tracker event, Only zeroHash tracker → Concerns zeroHash event ∧
      (∀ peerList ∈ listsOf zeroHash tracker, peerList.peerCount < 2 ^ 31 ∧ event.now - peerList.base ≤ otTorrentTimeout) ∧
      (tracker.allTorrents (bucketOfHash zeroHash)).size < 2 ^ 31 ∧
      ((tracker.served event).isSome ∨ Farewell zeroHash (peerAt 5).addr event) →
      Attended tracker event ∧ Tracker.Step tracker event (tracker.apply event) ∧ Only zeroHash (tracker.apply event) := by
    rintro tracker event only ⟨concerns, lists, torrents, served⟩
    refine ⟨⟨only_bounded only (fun peerList kept => (lists peerList kept).1) torrents, ?_, fun announces => ?_⟩, rfl,
      only.apply concerns⟩
    · unfold Prompt
      split
      · exact fun peerList held _ => (lists peerList (only.lists ⟨_, _, held⟩)).2
      · trivial
    · obtain ⟨_, _, _, _, call, _⟩ := announcement_call announces
      simpa [Farewell, call] using served
  obtain ⟨run, only⟩ := Run.within (Only zeroHash) attended (only_initial _)
    (by decide +kernel : Along _ Tracker.apply .initial (visits ++ [leaving]))
  have ordered : Ordered ((visits ++ [leaving]) ++ [asking]) := by
    unfold Ordered
    decide
  obtain ⟨living, all⟩ := replies_name_living run (attended _ asking only (by decide +kernel)).1 ordered rfl rfl
  obtain ⟨reply, given, distinct, named⟩ := all (by decide +kernel)
  have alive : ∀ i ∈ [4, 7, 9], Alive zeroHash (peerAt i).addr ((visits ++ [leaving]) ++ [asking]) asking.now := by decide +kernel
  have gone : ∀ i ∈ [3, 5], ¬ Alive zeroHash (peerAt i).addr ((visits ++ [leaving]) ++ [asking]) asking.now := by decide +kernel
  exact ⟨_, reply, run, given, distinct, fun i member => named _ (alive i member),
    fun i member inside => gone i member (living reply given _ inside)⟩

end Runs

end BtServer.Proofs.PeerDiscovery
