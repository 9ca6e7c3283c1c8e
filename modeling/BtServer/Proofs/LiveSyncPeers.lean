import BtServer.Proofs.LiveTold
import BtServer.Proofs.LiveWiring
import BtServer.Proofs.PeerStays

/-! What the live sync keeps alive. A peer that announces itself to one of two trackers is present at the other one as long as
records about it come often enough. Announces that come too fast are not told, and enough of them in a row let the other
tracker forget the peer. -/

namespace BtServer.Proofs.LiveSyncPeers
open Lib PeerListEdits TrackerSteps TrackerInvariant TrackerRefinement Completions LiveAnnounces LiveTold PeerStays
open LiveWiring PeerMapEdits

variable {heap : Heap} {record : SyncRecord 4} {call : Call} {tracker : Tracker} {now : Int}
  {rest : List (SyncRecord 4)} {site : Site}

section Logs
variable {hash : Hash} {addr : Bytes} {told : Site → List (Int × SyncRecord 4)} {done : Nat}
variable {announced : List (Int × Hash × Bytes)} {now : Int}

def About (hash : Hash) (addr : Bytes) (record : SyncRecord 4) : Bool := record.hash = hash ∧ record.toPeer.addr = addr

def times (hash : Hash) (addr : Bytes) (entries : List (Int × SyncRecord 4)) : List Int :=
  (entries.filter fun entry => About hash addr entry.2).map Prod.fst

@[simp] theorem times_append (left right : List (Int × SyncRecord 4)) :
    times hash addr (left ++ right) = times hash addr left ++ times hash addr right := by simp [times]

theorem mem_times {entries : List (Int × SyncRecord 4)} {time : Int} :
    time ∈ times hash addr entries ↔ ∃ record, (time, record) ∈ entries ∧ About hash addr record = true := by
  simp [times]

def Close (earlier later : Int) : Prop := gNowMinutes later < gNowMinutes earlier + (otPeerTimeout - 1)

/-- What is known of the records told when B has handled `done` of those that A told. -/
structure Logged (hash : Hash) (addr : Bytes) (told : Site → List (Int × SyncRecord 4)) (done : Nat)
    (announced : List (Int × Hash × Bytes)) (now : Int) : Prop where
  silent : ∀ entry ∈ told .b, About hash addr entry.2 = false
  alive : ∀ entry ∈ told .a, About hash addr entry.2 = true → entry.2.toPeer.flag &&& peerFlagStopped = 0
  past : ∀ entry ∈ told .a, entry.1 ≤ now
  close : (times hash addr (told .a)).IsChain Close
  first : ∀ entry ∈ announced, entry.2 = (hash, addr) → ∃ time ∈ (times hash addr (told .a)).head?, time ≤ entry.1
  soon : ∀ entry ∈ (told .a).drop done, now < entry.1 + 60

theorem minute_mono {earlier later : Int} (le : earlier ≤ later) : gNowMinutes earlier ≤ gNowMinutes later :=
  Int.tdiv_le_tdiv (by omega) le

theorem minute_next {earlier later : Int} (soon : later < earlier + 60) : gNowMinutes later ≤ gNowMinutes earlier + 1 := by
  have sign : Int.sign 60 = 1 := rfl
  simp only [gNowMinutes, Int.tdiv_eq_ediv, sign]
  split <;> split <;> omega

theorem Logged.young (logged : Logged hash addr told done announced now)
    (recent : ∀ time ∈ (times hash addr (told .a)).getLast?, Close time now) :
    ∀ time ∈ (times hash addr ((told .a).take done)).getLast?, gNowMinutes now < gNowMinutes time + otPeerTimeout := by
  intro time last
  have close := logged.close
  rw [← List.take_append_drop done (told .a), times_append] at close recent
  cases waiting : times hash addr ((told .a).drop done) with
  | nil =>
    rw [waiting, List.append_nil] at recent
    have gap := recent time last
    unfold Close at gap
    omega
  | cons next rest =>
    -- The next record is on its way, and it came in time after the last one.
    have gap := (List.isChain_append.mp close).2.2 time last next (by simp [waiting])
    obtain ⟨record, member, -⟩ := mem_times.mp (waiting ▸ List.mem_cons_self : next ∈ times hash addr ((told .a).drop done))
    have minute := minute_next (logged.soon _ member)
    unfold Close at gap
    simp only at minute
    omega

theorem Logged.later {later : Int} (logged : Logged hash addr told done announced now) (le : now ≤ later)
    (soon : ∀ entry ∈ (told .a).drop done, later < entry.1 + 60) : Logged hash addr told done announced later :=
  ⟨logged.silent, logged.alive, fun entry member => le_trans (logged.past entry member) le, logged.close, logged.first, soon⟩

theorem Logged.tell (logged : Logged hash addr told done announced now) (inside : done ≤ (told .a).length)
    (recent : ∀ time ∈ (times hash addr (told .a)).getLast?, Close time now)
    (alive : About hash addr record = true → record.toPeer.flag &&& peerFlagStopped = 0) :
    Logged hash addr (Function.update told .a (told .a ++ [(now, record)])) done announced now := by
  refine ⟨logged.silent, ?_, ?_, ?_, ?_, ?_⟩
  · simp only [Function.update_self, List.mem_append, List.mem_singleton]
    rintro entry (before | rfl) about
    · exact logged.alive entry before about
    · exact alive about
  · simp only [Function.update_self, List.mem_append, List.mem_singleton]
    rintro entry (before | rfl)
    · exact logged.past entry before
    · exact le_refl _
  · simp only [Function.update_self, times_append]
    refine logged.close.append ?_ ?_
    · cases about : About hash addr record <;> simp [times, about]
    · intro last member next head
      cases about : About hash addr record with
      | false => simp [times, about] at head
      | true =>
        obtain rfl : now = next := by simpa [times, about] using head
        exact recent last member
  · intro entry member about
    obtain ⟨time, head, le⟩ := logged.first entry member about
    refine ⟨time, ?_, le⟩
    simp only [Function.update_self, times_append, List.head?_append, Option.mem_def] at head ⊢
    rw [head]
    rfl
  · simp only [Function.update_self, List.drop_append_of_le_length inside, List.mem_append, List.mem_singleton]
    rintro entry (before | rfl)
    · exact logged.soon entry before
    · simp

theorem Logged.announce (logged : Logged hash addr told done announced now) {more : List (Int × Hash × Bytes)}
    (current : ∀ entry ∈ more, entry.1 = now) (some : (∃ entry ∈ more, entry.2 = (hash, addr)) → times hash addr (told .a) ≠ []) :
    Logged hash addr told done (announced ++ more) now := by
  refine ⟨logged.silent, logged.alive, logged.past, logged.close, ?_, logged.soon⟩
  intro entry member about
  rcases List.mem_append.mp member with before | new
  · exact logged.first entry before about
  · obtain ⟨first, rest, shape⟩ := List.exists_cons_of_ne_nil (some ⟨entry, new, about⟩)
    refine ⟨first, by simp [shape], ?_⟩
    obtain ⟨record, inside, -⟩ := mem_times.mp (shape ▸ List.mem_cons_self : first ∈ times hash addr (told .a))
    rw [current entry new]
    exact logged.past _ inside

end Logs

section Pairs
variable {ids : Site → Vector UInt8 4} {hash : Hash} {addr : Bytes} {pair : LivePair} {event : LiveEvent}

/-- The peer announces itself to A only and does not stop. -/
def Admits (hash : Hash) (addr : Bytes) (site : Site) : NodeCall → Prop
  | .client _ (.announce _ announced peer _ _) =>
    announced = hash → peer.addr = addr → site = .a ∧ peer.flag &&& peerFlagStopped = 0
  | .client _ (.stop _ stopped peer _) => stopped = hash → peer.addr ≠ addr
  | _ => True

/-- A step of a schedule in which packets take less than a minute and the last announce
of the peer is less than `OT_PEER_TIMEOUT - 1` minutes old. -/
@[mk_iff]
structure Scheduled (hash : Hash) (addr : Bytes) (pair : LivePair) (event : LiveEvent) : Prop where
  clock : pair.gNowSeconds ≤ event.gNowSeconds
  delivered : ∀ entry ∈ (pair.told .a).drop (pair.handled .b).length, event.gNowSeconds < entry.1 + 60
  calls : Admits hash addr event.site event.call
  gaps : ∀ entry ∈ ((pair.announced .a).filter fun entry => entry.2 = (hash, addr)).getLast?,
    Close entry.1 event.gNowSeconds

def Sized (tracker : Tracker) : Prop :=
  (∀ peerList, Keeps tracker peerList → peerList.peerCount < 2 ^ 31) ∧ ∀ bucket, (tracker.allTorrents bucket).size < 2 ^ 31

theorem Sized.bounded (sized : Sized tracker) (event : Event) : Bounded tracker event := ⟨sized.1, sized.2⟩

theorem Sized.small (sized : Sized tracker) (peerList : PeerList) (held : Holds tracker hash peerList) : peerList.peerCount < 2 ^ 31 :=
  sized.1 peerList ⟨_, hash, held⟩

/-- There is memory for the peer, and the last record told about it is less than
`OT_PEER_TIMEOUT - 1` minutes old. -/
structure Renewed (hash : Hash) (addr : Bytes) (pair : LivePair) (event : LiveEvent) : Prop where
  sized : event.call ≠ .ticker → event.call ≠ .receive → Sized (pair.node event.site).tracker
  announces : ∀ heap proto peer amount random, event.call = .client heap (.announce proto hash peer amount random) →
    peer.addr = addr → Plenty heap
  handles : ∀ heap record rest, event.call = .handle heap → (pair.node event.site).inbox = record :: rest →
    About hash addr record = true → Plenty heap
  recent : ∀ time ∈ (times hash addr (pair.told .a)).getLast?, Close time event.gNowSeconds

structure Synced (ids : Site → Vector UInt8 4) (hash : Hash) (addr : Bytes) (pair : LivePair) : Prop where
  wired : Wired ids pair
  tidy : ∀ site, Tidy (pair.node site).tracker
  logged : Logged hash addr pair.told (pair.handled .b).length (pair.announced .a) pair.gNowSeconds
  absent : (∀ entry ∈ pair.announced .a, entry.2 ≠ (hash, addr)) → (pair.node .a).tracker.toMap hash addr = none
  stays : ∀ time ∈ (times hash addr ((pair.told .a).take (pair.handled .b).length)).getLast?,
    Stays (pair.node .b).tracker hash addr (gNowMinutes time) (gNowMinutes pair.gNowSeconds)

theorem synced_initial (ids : Site → Vector UInt8 4) (start : Int) : Synced ids hash addr (.initial ids start) := by
  refine ⟨wired_initial ids start, fun _ => run_tidy (.done _), ?_, fun _ => rfl, ?_⟩
  · exact ⟨by simp [LivePair.initial], by simp [LivePair.initial], by simp [LivePair.initial], by simp [LivePair.initial, times],
      by simp [LivePair.initial], by simp [LivePair.initial]⟩
  · simp [LivePair.initial, times]

theorem Synced.handled_le (synced : Synced ids hash addr pair) : (pair.handled .b).length ≤ (pair.told .a).length := by
  have order := (synced.wired .b).2.order.length_le
  simp only [List.length_append, List.length_map, Site.other] at order
  omega

theorem Synced.inbox (synced : Synced ids hash addr pair) (inbox : (pair.node .b).inbox = record :: rest) :
    ∃ time more, (pair.told .a).drop (pair.handled .b).length = (time, record) :: more := by
  obtain ⟨more, order⟩ := (synced.wired .b).2.order
  rw [inbox] at order
  have left : ((pair.told .a).drop (pair.handled .b).length).map Prod.snd = record :: (rest ++ more) := by
    rw [List.map_drop, show (pair.told .a).map Prod.snd = _ from order.symm]
    simp
  obtain ⟨⟨time, told⟩, tail, shape, rfl, -⟩ := List.map_eq_cons_iff.mp left
  exact ⟨time, tail, shape⟩

theorem Synced.others (synced : Synced ids hash addr pair)
    (member : record ∈ (pair.node .a).inbox) : About hash addr record = false := by
  have told := (synced.wired .a).2.order.subset (List.mem_append_right _ member)
  obtain ⟨entry, inside, rfl⟩ := List.mem_map.mp told
  exact synced.logged.silent entry inside

theorem Synced.later (synced : Synced ids hash addr pair) (scheduled : Scheduled hash addr pair event) :
    Synced ids hash addr { pair with gNowSeconds := event.gNowSeconds } := by
  refine ⟨synced.wired, synced.tidy, synced.logged.later scheduled.clock scheduled.delivered, synced.absent, ?_⟩
  intro time last
  exact (synced.stays time last).later (minute_mono scheduled.clock)

theorem mem_announces {entry : Int × Hash × Bytes} (member : entry ∈ call.announces now) :
    ∃ proto peer amount random, call = .announce proto entry.2.1 peer amount random ∧ entry = (now, entry.2.1, peer.addr) := by
  cases call with
  | announce proto hash peer amount random =>
    obtain rfl := List.mem_singleton.mp member
    exact ⟨proto, peer, amount, random, rfl, rfl⟩
  | _ => simp [Call.announces] at member

theorem sanitizeFlag_stopped {flag : UInt8} (running : flag &&& peerFlagStopped = 0) :
    sanitizeFlag flag &&& peerFlagStopped = 0 := by
  have checked : ∀ flag : UInt8, flag &&& peerFlagStopped = 0 → sanitizeFlag flag &&& peerFlagStopped = 0 :=
    forall_byte (by decide +kernel)
  exact checked flag running

theorem told_about
    (admits : Admits hash addr site (.client heap call)) (told : (tracker.applyLive ⟨now, heap, call⟩).2 = some record)
    (about : About hash addr record = true) : site = .a ∧ record.toPeer.flag &&& peerFlagStopped = 0 := by
  obtain ⟨same, here⟩ : record.hash = hash ∧ record.toPeer.addr = addr := by simpa [About] using about
  rcases applyLive_told told with ⟨proto, peer, amount, random, shape, stored⟩ | ⟨proto, peer, random, shape, stored⟩
  · obtain rfl : call = _ := shape
    rw [stored] at here ⊢
    obtain ⟨site, running⟩ := admits same (by simpa using here)
    exact ⟨site, sanitizeFlag_stopped running⟩
  · obtain rfl : call = _ := shape
    exact absurd (stored.symm.trans here) (admits same)

/-- A peer that comes back after more than `OT_CLIENT_SYNC_RENEW_BOUNDARY` minutes, or for the first time, is told. -/
theorem told_due (tidy : Tidy tracker) (sized : Sized tracker) (plenty : Plenty heap)
    (now : Int) (proto : Proto) {peer : Peer} (amount : Nat) (random : List Nat)
    (due : ∀ peerList, Holds tracker hash peerList → Due (gNowMinutes now) peer.addr peerList) :
    ∃ record, (tracker.applyLive ⟨now, heap, .announce proto hash peer amount random⟩).2 = some record ∧
      About hash peer.addr record = true := by
  obtain ⟨served, result, told⟩ :=
    addPeerToTorrentLive_plenty tidy sized.small plenty (gNowMinutes now) random (.client proto) peer amount
  refine ⟨syncRecord hash (fresh peer), ?_, ?_⟩
  · simp only [Tracker.applyLive]
    rw [show Event.now _ = gNowMinutes now from rfl, result]
    simp [told (by simp) due]
  · simp only [About, toPeer_syncRecord, fresh_addr]
    simp [syncRecord]

section Clients
variable (synced : Synced ids hash addr pair) (recent : ∀ time ∈ (times hash addr (pair.told .a)).getLast?, Close time pair.gNowSeconds)
include synced recent

theorem Synced.tell_a (admits : Admits hash addr .a (.client heap call)) :
    Logged hash addr (pair.client .a heap call).told (pair.handled .b).length (pair.announced .a) pair.gNowSeconds := by
  rw [client_told]
  cases told : ((pair.node .a).tracker.applyLive ⟨pair.gNowSeconds, heap, call⟩).2 with
  | none => simpa using synced.logged
  | some record =>
    have more := synced.logged.tell synced.handled_le recent fun about => (told_about admits told about).2
    simpa using more

variable (sized : Sized (pair.node .a).tracker) (admits : Admits hash addr .a (.client heap call))
  (plenty : ∀ proto peer amount random, call = .announce proto hash peer amount random → peer.addr = addr → Plenty heap)
include sized admits plenty

theorem Synced.announce_a :
    Logged hash addr (pair.client .a heap call).told (pair.handled .b).length
      (pair.announced .a ++ call.announces pair.gNowSeconds) pair.gNowSeconds := by
  refine (synced.tell_a recent admits).announce ?_ ?_
  · intro entry member
    obtain ⟨proto, peer, amount, random, -, shape⟩ := mem_announces member
    rw [shape]
  · rintro ⟨entry, member, about⟩ nothing
    obtain ⟨proto, peer, amount, random, rfl, shape⟩ := mem_announces member
    obtain ⟨here, rfl⟩ : entry.2.1 = hash ∧ peer.addr = addr := by
      rw [shape] at about
      simpa using about
    rw [here] at plenty nothing
    rw [client_told, Function.update_self, times_append, List.append_eq_nil_iff] at nothing
    -- Nothing has been told, so that there was no announce yet and the peer is new.
    have absent := synced.absent fun earlier before same => by
      obtain ⟨time, head, -⟩ := synced.logged.first earlier before same
      simp [nothing.1] at head
    have due : ∀ peerList, Holds (pair.node .a).tracker hash peerList → Due (gNowMinutes pair.gNowSeconds) peer.addr peerList := by
      intro peerList held old inside same
      rw [toMap_eq (synced.tidy .a) held] at absent
      exact absurd same (toMap_eq_none.mp absent old inside)
    obtain ⟨record, told, known⟩ :=
      told_due (synced.tidy .a) sized (plenty _ _ _ _ rfl rfl) pair.gNowSeconds proto amount random due
    simp [told, times, known] at nothing

theorem Synced.client_a :
    Synced ids hash addr (pair.client .a heap call) := by
  have applied : ((pair.client .a heap call).node .a).tracker =
      (pair.node .a).tracker.apply ⟨pair.gNowSeconds, heap, call⟩ := by
    rw [client_node, Function.update_self]
    exact applyLive_eq _ _
  have other : (pair.client .a heap call).node .b = pair.node .b := by
    rw [client_node, Function.update_of_ne (by decide)]
  have announced : (pair.client .a heap call).announced .a = pair.announced .a ++ call.announces pair.gNowSeconds := by
    rw [client_announced, Function.update_self]
  refine ⟨wired_client synced.wired .a heap call, ?_, ?_, ?_, ?_⟩
  · intro site
    cases site with
    | a => exact applied ▸ tidy_apply (synced.tidy .a) (sized.bounded _)
    | b => exact other ▸ synced.tidy .b
  · rw [announced]
    exact synced.announce_a recent sized admits plenty
  · rw [announced, applied]
    intro none
    refine absent_apply (synced.tidy .a) (sized.bounded _) (synced.absent fun entry member => none entry (by simp [member])) ?_
    rintro proto peer amount random shape rfl
    obtain rfl : call = _ := shape
    exact none (pair.gNowSeconds, hash, peer.addr) (by simp [Call.announces]) rfl
  · rw [other, client_told, Function.update_self, client_handled, List.take_append_of_le_length synced.handled_le]
    exact synced.stays

end Clients

theorem Synced.client_b (synced : Synced ids hash addr pair)
    (young : ∀ time ∈ (times hash addr ((pair.told .a).take (pair.handled .b).length)).getLast?,
      gNowMinutes pair.gNowSeconds < gNowMinutes time + otPeerTimeout)
    (sized : Sized (pair.node .b).tracker) (admits : Admits hash addr .b (.client heap call)) :
    Synced ids hash addr (pair.client .b heap call) := by
  have applied : ((pair.client .b heap call).node .b).tracker =
      (pair.node .b).tracker.apply ⟨pair.gNowSeconds, heap, call⟩ := by
    rw [client_node, Function.update_self]
    exact applyLive_eq _ _
  have other : (pair.client .b heap call).node .a = pair.node .a := by
    rw [client_node, Function.update_of_ne (by decide)]
  have announced : (pair.client .b heap call).announced .a = pair.announced .a := by
    rw [client_announced, Function.update_of_ne (by decide)]
  have told : (pair.client .b heap call).told .a = pair.told .a := by
    rw [client_told, Function.update_of_ne (by decide)]
  have logged := synced.logged
  refine ⟨wired_client synced.wired .b heap call, ?_, ?_, ?_, ?_⟩
  · intro site
    cases site with
    | a => exact other ▸ synced.tidy .a
    | b => exact applied ▸ tidy_apply (synced.tidy .b) (sized.bounded _)
  · rw [announced, client_handled]
    refine ⟨?_, told ▸ logged.alive, told ▸ logged.past, told ▸ logged.close, told ▸ logged.first, told ▸ logged.soon⟩
    rw [client_told, Function.update_self]
    intro entry member
    rcases List.mem_append.mp member with before | new
    · exact logged.silent entry before
    · obtain ⟨record, tells, rfl⟩ := List.mem_map.mp new
      by_contra about
      have site := (told_about admits (Option.mem_toList.mp tells) (by simpa using about)).1
      cases site
  · rw [announced, other]
    exact synced.absent
  · rw [applied, told, client_handled]
    intro time last
    refine stays_apply (synced.tidy .b) (sized.bounded _) (synced.stays time last) (le_refl _) (young time last) ?_
    rintro proto peer random shape rfl
    obtain rfl : call = _ := shape
    exact admits rfl rfl

theorem Synced.ticker (synced : Synced ids hash addr pair) (site : Site) : Synced ids hash addr (pair.ticker site) := by
  have trackers : ∀ other, ((pair.ticker site).node other).tracker = (pair.node other).tracker := by
    intro other
    by_cases here : other = site
    · subst here
      simp [LivePair.ticker]
    · simp [LivePair.ticker, here]
  refine ⟨wired_ticker synced.wired site, fun other => trackers other ▸ synced.tidy other, synced.logged, ?_, ?_⟩
  · rw [trackers]
    exact synced.absent
  · rw [trackers]
    exact synced.stays

theorem receive_cases (pair : LivePair) (site : Site) : ∃ nodes, pair.receive site = { pair with node := nodes } ∧
    ∀ other, (nodes other).tracker = (pair.node other).tracker := by
  unfold LivePair.receive
  extract_lets node
  split
  · refine ⟨_, rfl, fun other => ?_⟩
    by_cases here : other = site
    · subst here
      simp [node]
    · simp [here]
  · exact ⟨_, rfl, fun _ => rfl⟩

theorem Synced.receive (different : ids .a ≠ ids .b) (synced : Synced ids hash addr pair) (site : Site) :
    Synced ids hash addr (pair.receive site) := by
  have wired := wired_receive different synced.wired site
  obtain ⟨nodes, shape, trackers⟩ := receive_cases pair site
  rw [shape] at wired ⊢
  refine ⟨wired, fun other => trackers other ▸ synced.tidy other, synced.logged, ?_, ?_⟩
  · exact fun none => trackers .a ▸ synced.absent none
  · exact fun time last => trackers .b ▸ synced.stays time last

theorem handle_cases
    (inbox : (pair.node site).inbox = record :: rest) (heap : Heap) :
    pair.handle site heap = { pair with
      node := Function.update pair.node site { pair.node site with
        tracker := ((pair.node site).tracker.handleRecord heap pair.gNowSeconds record).1
        inbox := rest }
      handled := Function.update pair.handled site (pair.handled site ++ [record]) } := by
  simp only [LivePair.handle, inbox]

theorem Synced.handle_a (synced : Synced ids hash addr pair) (heap : Heap) (sized : Sized (pair.node .a).tracker) :
    Synced ids hash addr (pair.handle .a heap) := by
  cases inbox : (pair.node .a).inbox with
  | nil => simpa [LivePair.handle, inbox] using synced
  | cons record rest =>
    have wired := wired_handle synced.wired .a heap
    rw [handle_cases inbox] at wired ⊢
    obtain ⟨event, -, applied, call⟩ := handleRecord_eq (pair.node .a).tracker heap pair.gNowSeconds record
    have other : About hash addr record = false := synced.others (by simp [inbox])
    refine ⟨wired, ?_, synced.logged, ?_, synced.stays⟩
    · intro site
      cases site with
      | a => exact applied ▸ tidy_apply (synced.tidy .a) (sized.bounded event)
      | b => exact synced.tidy .b
    · intro none
      show (Tracker.handleRecord _ _ _ _).1.toMap hash addr = _
      rw [applied]
      refine absent_apply (synced.tidy .a) (sized.bounded event) (synced.absent none) ?_
      rintro proto peer amount random announces rfl
      rcases call with ⟨-, stop⟩ | ⟨-, flag, announced, -⟩
      · rw [announces] at stop
        cases stop
      · rw [announces] at announced
        cases announced
        simp [About, Peer.addr] at other

private theorem stays_about (tidy : Tidy tracker) (sized : Sized tracker) (now : Int)
    (plenty : Plenty heap) (about : About hash addr record = true) (alive : record.toPeer.flag &&& peerFlagStopped = 0) :
    Stays (tracker.handleRecord heap now record).1 hash addr (gNowMinutes now) (gNowMinutes now) := by
  obtain ⟨rfl, rfl⟩ : record.hash = hash ∧ record.toPeer.addr = addr := by simpa [About] using about
  obtain ⟨event, rfl, applied, ⟨stopped, -⟩ | ⟨-, flag, call, served⟩⟩ := handleRecord_eq tracker heap now record
  · exact absurd alive stopped
  · have small : ∀ peerList, Holds tracker record.hash peerList → _ := sized.small
    obtain ⟨result, done, -⟩ := addPeerToTorrentLive_plenty tidy small plenty (gNowMinutes event.gNowSeconds) [] .mca record.toPeer 0
    have success : (tracker.handleRecord heap event.gNowSeconds record).2 = true := by
      simp only [Tracker.handleRecord, alive, ne_eq, not_true_eq_false, if_false, done, Option.isSome_some]
    rw [applied]
    have stays := stays_announce tidy (sized.bounded event) call (served ▸ success)
    exact stays

private theorem stays_other (tidy : Tidy tracker) (sized : Sized tracker) (heap : Heap) {since : Int}
    (other : About hash addr record = false)
    (stays : Stays tracker hash addr since (gNowMinutes now)) (young : gNowMinutes now < since + otPeerTimeout) :
    Stays (tracker.handleRecord heap now record).1 hash addr since (gNowMinutes now) := by
  obtain ⟨event, rfl, applied, call⟩ := handleRecord_eq tracker heap now record
  rw [applied]
  refine stays_apply tidy (sized.bounded event) stays (le_refl _) young ?_
  rintro proto peer random stops rfl
  rcases call with ⟨-, stop⟩ | ⟨-, flag, announced, -⟩
  · rw [stops] at stop
    cases stop
    simp [About] at other
  · rw [stops] at announced
    cases announced

theorem Synced.handle_b (synced : Synced ids hash addr pair)
    (young : ∀ time ∈ (times hash addr ((pair.told .a).take (pair.handled .b).length)).getLast?,
      gNowMinutes pair.gNowSeconds < gNowMinutes time + otPeerTimeout) (sized : Sized (pair.node .b).tracker)
    (plenty : ∀ record rest, (pair.node .b).inbox = record :: rest → About hash addr record = true → Plenty heap) :
    Synced ids hash addr (pair.handle .b heap) := by
  cases inbox : (pair.node .b).inbox with
  | nil => simpa [LivePair.handle, inbox] using synced
  | cons record rest =>
    have wired := wired_handle synced.wired .b heap
    have logged := synced.logged
    obtain ⟨time, more, next⟩ := synced.inbox inbox
    have member : (time, record) ∈ pair.told .a := List.mem_of_mem_drop (next ▸ List.mem_cons_self)
    have here : (pair.told .a)[(pair.handled .b).length]? = some (time, record) := by
      rw [← List.head?_drop, next]
      rfl
    rw [handle_cases inbox] at wired ⊢
    refine ⟨wired, ?_, ?_, synced.absent, ?_⟩
    · intro site
      cases site with
      | a => exact synced.tidy .a
      | b =>
        obtain ⟨event, -, applied, -⟩ := handleRecord_eq (pair.node .b).tracker heap pair.gNowSeconds record
        exact applied ▸ tidy_apply (synced.tidy .b) (sized.bounded event)
    · simp only [Function.update_self, List.length_append, List.length_singleton]
      refine ⟨logged.silent, logged.alive, logged.past, logged.close, logged.first, fun entry waits => ?_⟩
      rw [← List.drop_drop] at waits
      exact logged.soon entry (List.mem_of_mem_drop waits)
    · simp only [Function.update_self, List.length_append, List.length_singleton, List.take_add_one, here, Option.toList_some,
        times_append]
      intro last seen
      cases about : About hash addr record with
      | false =>
        simp only [times, List.filter_cons, about, Bool.false_eq_true, if_false, List.filter_nil, List.map_nil,
          List.append_nil] at seen
        exact stays_other (synced.tidy .b) sized heap about (synced.stays last seen) (young last seen)
      | true =>
        obtain rfl : time = last := by simpa [times, about] using seen
        have alive : record.toPeer.flag &&& peerFlagStopped = 0 := logged.alive (time, record) member about
        have earlier : time ≤ pair.gNowSeconds := logged.past (time, record) member
        obtain ⟨peerList, found, kept⟩ :=
          stays_about (synced.tidy .b) sized pair.gNowSeconds (plenty record rest inbox about) about alive
        exact ⟨peerList, found, kept.weaken (minute_mono earlier)⟩

theorem synced_next (different : ids .a ≠ ids .b) (synced : Synced ids hash addr pair)
    (scheduled : Scheduled hash addr pair event) (renewed : Renewed hash addr pair event) :
    Synced ids hash addr (pair.next event) := by
  have later := synced.later scheduled
  have young := later.logged.young renewed.recent
  have sized := renewed.sized
  have admits := scheduled.calls
  have handles := renewed.handles
  unfold LivePair.next
  cases call : event.call with
  | client heap call' =>
    have sized := sized (by simp [call]) (by simp [call])
    rw [call] at admits
    cases site : event.site with
    | a =>
      rw [site] at admits sized
      refine later.client_a renewed.recent sized admits ?_
      rintro proto peer amount random rfl here
      exact renewed.announces heap proto peer amount random call here
    | b =>
      rw [site] at admits sized
      exact later.client_b young sized admits
  | ticker => exact later.ticker event.site
  | receive => exact later.receive different event.site
  | handle heap =>
    have sized := sized (by simp [call]) (by simp [call])
    cases site : event.site with
    | a =>
      rw [site] at sized
      exact later.handle_a heap sized
    | b =>
      rw [site] at sized handles
      exact later.handle_b young sized fun record rest inbox about => handles heap record rest call inbox about

end Pairs

section Schedules
variable {hash : Hash} {addr : Bytes} {pair : LivePair} {event : LiveEvent}

instance (earlier later : Int) : Decidable (Close earlier later) := inferInstanceAs (Decidable (_ < _))

instance (site : Site) (call : NodeCall) : Decidable (Admits hash addr site call) := by
  unfold Admits
  split <;> infer_instance

instance : Decidable (Scheduled hash addr pair event) :=
  decidable_of_iff _ (scheduled_iff hash addr pair event).symm

def twoIds : Site → Vector UInt8 4
  | .a => .replicate 4 1
  | .b => .replicate 4 2

def announceToA (gNowSeconds : Int) : LiveEvent :=
  ⟨gNowSeconds, .a, .client [] (.announce .udp zeroHash (peerAt 7) 2 [])⟩

def toldOnce : List LiveEvent := [announceToA 0, ⟨16, .a, .ticker⟩, ⟨16, .b, .receive⟩, ⟨16, .b, .handle []⟩]

def comingBack : List LiveEvent :=
  toldOnce ++ [announceToA 600, announceToA 1200, announceToA 1800, announceToA 2400, ⟨2700, .b, .client [] (.clean 0)⟩]

private theorem sized_initial : Sized .initial := by
  refine ⟨?_, fun bucket => by simp [Tracker.initial, OtVector.empty, OtVector.size]⟩
  rintro peerList ⟨bucket, hash, member⟩
  simp [Tracker.initial, OtVector.empty] at member

private def heapOf : NodeCall → Heap
  | .client heap _ | .handle heap => heap
  | .ticker | .receive => []

private theorem renewed_of (memory : heapOf event.call = [])
    (sized : event.call ≠ .ticker → event.call ≠ .receive → Sized (pair.node event.site).tracker)
    (recent : ∀ time ∈ (times hash addr (pair.told .a)).getLast?, Close time event.gNowSeconds) :
    Renewed hash addr pair event := by
  have plenty : Plenty [] := fun _ member => by cases member
  refine ⟨sized, ?_, ?_, recent⟩
  · intro heap proto peer amount random call _
    rw [call] at memory
    exact (show heap = [] from memory) ▸ plenty
  · intro heap record rest call _ _
    rw [call] at memory
    exact (show heap = [] from memory) ▸ plenty

def aMinuteLater : List LiveEvent := toldOnce ++ [⟨60, .b, .ticker⟩]

end Schedules

end BtServer.Proofs.LiveSyncPeers
