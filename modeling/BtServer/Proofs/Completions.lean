import BtServer.Proofs.TrackerRefinement

/-! Completed downloads. From the announce that puts a peer into a torrent to the event
that takes it out, the peer is counted once if it ever completes and never otherwise. -/

namespace BtServer.Proofs.Completions
open Lib PeerListShape PeerListEdits Cleaning PeerListInvariant PeerMapEdits TorrentTable TrackerSteps TrackerInvariant
  TrackerRefinement

variable {new peerList old : PeerList} {hash : Hash} {n amount i room : Nat} {peer : Peer} {flag : UInt8}
  {addr : Bytes} {result : PeerList × Option (List StatsEvent)} {events : List StatsEvent} {proto : Proto}
  {random : List Nat}

def isCompleted (flag : UInt8) : Bool := flag &&& peerFlagCompleted != 0

def listOf (tracker : Tracker) (hash : Hash) : PeerList := (tracker.find hash).getD .zero

/-- The tracker with `ot_overall_completed`, and what the counting is compared with: all
increments of a `down_count`, and for every peer those since it was last inserted. -/
structure Log where
  tracker : Tracker
  otOverallCompleted : Nat
  increments : Nat
  stays : Hash → Bytes → Nat

namespace Log

def initial : Log := ⟨.initial, 0, 0, fun _ _ => 0⟩

def entered (log : Log) (event : Event) (hash : Hash) : PeerList := entering event.heap event.now (log.tracker.find hash)

def next (log : Log) (event : Event) : Log :=
  let after := log.tracker.apply event
  match event.call, log.tracker.served event with
  | .announce _ hash peer _ _, some served =>
    let gained := (listOf after hash).downCount - (listOf log.tracker hash).downCount
    let earlier := if (log.entered event hash).peers.toMap peer.addr = none then 0 else log.stays hash peer.addr
    { tracker := after
      otOverallCompleted := served.events.foldl statsIssueEvent log.otOverallCompleted
      increments := log.increments + gained
      stays := Function.update log.stays hash (Function.update (log.stays hash) peer.addr (earlier + gained)) }
  | _, _ => { log with tracker := after }

def Step (before : Log) (event : Event) (after : Log) : Prop := before.next event = after

/-- The run is one of announces, stops, scrapes and cleanings; the lists are within
bounds, and no counter is at its end. -/
structure Permitted (log : Log) (event : Event) : Prop where
  bounded : Bounded log.tracker event
  down : ∀ hash peerList, log.tracker.find hash = some peerList → peerList.downCount + 1 < 2 ^ 64
  completed : log.otOverallCompleted + 1 < 2 ^ 64
  live : ∀ hash base downCount, event.call ≠ .savedState hash base downCount

end Log

section Lists
variable {now : Int} {peerList : PeerList} {peer : Peer}

structure Descends (old new : PeerList) : Prop where
  downCount : new.downCount = old.downCount
  flags : ∀ addr flag age, new.peers.toMap addr = some (flag, age) → ∃ before, old.peers.toMap addr = some (flag, before)

theorem Descends.refl (peerList : PeerList) : Descends peerList peerList := ⟨rfl, fun _ _ age stored => ⟨age, stored⟩⟩

theorem Descends.trans {first middle last : PeerList} (one : Descends first middle) (two : Descends middle last) :
    Descends first last := by
  refine ⟨two.downCount.trans one.downCount, fun addr flag age stored => ?_⟩
  obtain ⟨before, earlier⟩ := two.flags addr flag age stored
  exact one.flags addr flag before earlier

theorem Descends.absent (descends : Descends old new) (absent : old.peers.toMap addr = none) : new.peers.toMap addr = none := by
  rcases Option.eq_none_or_eq_some (new.peers.toMap addr) with none | ⟨⟨flag, age⟩, stored⟩
  · exact none
  · obtain ⟨before, earlier⟩ := descends.flags addr flag age stored
    rw [absent] at earlier
    cases earlier

theorem cleaned_descends {result : PeerList × Bool} (cleaned : Cleaned now peerList result) (sound : Sound peerList)
    (small : peerList.peerCount < 2 ^ 31) : Descends peerList result.1 := by
  have cleaned' := cleaned
  cases cleaned with
  | current same => exact .refl _
  | late idle => exact .refl _
  | vacant idle empty => exact .refl _
  | swept moved recent occupied counted result =>
    refine ⟨rfl, fun addr flag age stored => ?_⟩
    rw [cleaned_toMap cleaned' sound small rfl moved] at stored
    unfold PeerMap.expire at stored
    split at stored
    · cases stored
    next was old found =>
      split at stored
      · cases stored
        exact ⟨old, found⟩
      · cases stored

theorem stopped_descends {result : PeerList} (stopped : Stopped peerList peer result) (sound : Sound peerList)
    (small : peerList.peerCount < 2 ^ 31) : Descends peerList result := by
  refine ⟨by cases stopped <;> rfl, fun addr flag age stored => ⟨age, ?_⟩⟩
  rw [stopped_toMap stopped sound small, PeerMap.stop] at stored
  by_cases same : addr = peer.addr
  · subst same
    rw [Function.update_self] at stored
    cases stored
  · rwa [Function.update_of_ne same] at stored

/-- The announce is the one that sets the stored `COMPLETED` flag of the peer. -/
def Completes (peerList : PeerList) (peer : Peer) : Prop :=
  peerList.peers.toMap.completedBit peer.addr = 0 ∧ (fresh peer).completed = true

instance (peerList : PeerList) (peer : Peer) : Decidable (Completes peerList peer) :=
  inferInstanceAs (Decidable (_ ∧ _))

theorem completedBit_stored {old : Peer} (sound : Sound peerList) (member : old ∈ peerList.peers.all) :
    peerList.peers.toMap.completedBit old.addr = 0 ↔ old.completed = false := by
  simp [PeerMap.completedBit, toMap_of_mem sound member, Peer.completed]

theorem announced_counts
    (announced : Announced now peerList peer result) (issued : result.2 = some events) (sound : Sound peerList)
    (small : peerList.peerCount < 2 ^ 31) (room : peerList.downCount + 1 < 2 ^ 64) :
    result.1.downCount = peerList.downCount + (if Completes peerList peer then 1 else 0) ∧
      ∀ count, events.foldl statsIssueEvent count = if Completes peerList peer then incSize count else count := by
  have counted : incSize peerList.downCount = peerList.downCount + 1 := by
    rw [incSize, Nat.mod_eq_of_lt room]
  have sound' := announced_sound announced sound small
  cases announced with
  | refused => cases issued
  | @inserted left right before after space space' peers split index cut shaped edited =>
    cases issued
    have absent : peerList.peers.toMap.completedBit peer.addr = 0 := by
      rw [PeerMap.completedBit, toMap_eq_none.mpr]
      intro other member
      rw [all_split split] at member
      exact apart sound' edited other member
    by_cases completed : (fresh peer).completed = true
    · simp [Completes, absent, completed, counted, statsIssueEvent]
    · simp [Completes, completed]
  | @renewed left right before after old space peers split index same shaped edited =>
    cases issued
    have member : old ∈ peerList.peers.all := by simp [all_split split]
    have was := completedBit_stored sound member
    rw [same] at was
    simp only [Completes, was, List.foldl_cons, statsIssueEvent]
    cases old.completed <;> cases (fresh peer).completed <;> simp [counted, statsIssueEvent]

theorem announced_refused (announced : Announced now peerList peer result)
    (refused : result.2 = none) : Descends peerList result.1 := by
  cases announced with
  | refused => exact ⟨rfl, fun _ _ age stored => ⟨age, stored⟩⟩
  | inserted | renewed => cases refused

theorem cleaned_toMap_eq (sound : Sound peerList) (small : peerList.peerCount < 2 ^ 31) (first second : Heap) :
    (cleanSingleTorrent first now peerList).2.1.peers.toMap = (cleanSingleTorrent second now peerList).2.1.peers.toMap := by
  have swept (heap : Heap) (moved : now - peerList.base ≠ 0) (stays : (cleanSingleTorrent heap now peerList).2.2 = false) :=
    cleaned_toMap (cleanSingleTorrent_cases heap now peerList sound.shaped) sound small stays moved
  by_cases current : now - peerList.base = 0
  · simp only [cleanSingleTorrent, if_pos current]
  by_cases late : now - peerList.base > otTorrentTimeout
  · simp only [cleanSingleTorrent, if_neg current, if_pos late]
  by_cases vacant : now - peerList.base > otPeerTimeout ∧ peerList.peerCount = 0
  · simp only [cleanSingleTorrent, if_neg current, if_neg late, if_pos vacant]
  · have stays (heap : Heap) : (cleanSingleTorrent heap now peerList).2.2 = false := by
      simp only [cleanSingleTorrent, if_neg current, if_neg late, if_neg vacant]
    rw [swept first current (stays first), swept second current (stays second)]

end Lists

section Steps
variable {tracker : Tracker} {event : Event}

theorem tidy_apply (tidy : Tidy tracker) (bounded : Bounded tracker event) : Tidy (tracker.apply event) := by
  have roomy : Roomy tracker := fun bucket => lt_trans (bounded.torrents bucket) (by norm_num)
  obtain ⟨housed, effects⟩ := apply_explained tidy.housed event
  refine ⟨housed, apply_indexed tidy.housed tidy.indexed roomy event, fun hash peerList held => ?_⟩
  exact effect_sound (effects hash peerList held) fun hash peerList held => ⟨tidy.sound hash peerList held, bounded.peers.small held⟩

theorem find_eq_some (tidy : Tidy tracker) :
    tracker.find hash = some peerList ↔ Holds tracker hash peerList :=
  stored_eq_some (tidy.indexed _)

theorem listOf_some (found : tracker.find hash = some peerList) :
    listOf tracker hash = peerList := by
  rw [listOf, found, Option.getD_some]

theorem toMap_listOf (tracker : Tracker) (hash : Hash) : tracker.toMap hash = (listOf tracker hash).peers.toMap := by
  unfold Tracker.toMap listOf
  cases tracker.find hash <;> rfl

theorem cleanings_descend {now : Int} (passes : Relation.TransGen (CleanedBy now) old new)
    (sound : Sound old) (small : old.peerCount < 2 ^ 31) : Descends old new := by
  refine (cleanings_preserve (fun new => (Sound new ∧ new.peerCount < 2 ^ 31) ∧ Descends old new) ?_ passes
    ⟨⟨sound, small⟩, .refl old⟩).2
  rintro heap middle ⟨⟨sound, small⟩, descends⟩
  have cleaned := cleanSingleTorrent_sound heap now sound small
  exact ⟨⟨cleaned.1, lt_of_le_of_lt cleaned.2 small⟩,
    descends.trans (cleaned_descends (cleanSingleTorrent_cases heap now middle sound.shaped) sound small)⟩

variable (tidy : Tidy tracker) (bounded : Bounded tracker event)
include tidy bounded

theorem unannounced_descends (live : ∀ hash base downCount, event.call ≠ .savedState hash base downCount)
    (other : ∀ proto peer amount random, event.call ≠ .announce proto hash peer amount random)
    (found : (tracker.apply event).find hash = some new) : Descends (listOf tracker hash) new := by
  have effect := (apply_explained tidy.housed event).2 hash new ((find_eq_some (tidy_apply tidy bounded)).mp found)
  cases effect with
  | kept held =>
    rw [listOf_some ((find_eq_some tidy).mpr held)]
    exact .refl new
  | @cleaned old _ held cleans passes =>
    rw [listOf_some ((find_eq_some tidy).mpr held)]
    exact cleanings_descend passes (tidy.sound hash old held) (bounded.peers.small held)
  | created call => exact absurd call (other _ _ _ _)
  | announced call => exact absurd call (other _ _ _ _)
  | stopped call held =>
    rw [listOf_some ((find_eq_some tidy).mpr held)]
    have sound := tidy.sound hash _ held
    exact stopped_descends (stopPeer_cases _ _ sound.shaped) sound (bounded.peers.small held)
  | restored call => exact absurd call (live _ _ _)

structure Performed (tracker : Tracker) (event : Event) (hash : Hash) (peer : Peer) (events : List StatsEvent)
    (entered new : PeerList) : Prop where
  found : (tracker.apply event).find hash = some new
  others : ∀ other, other ≠ hash → (tracker.apply event).find other = tracker.find other
  descends : Descends (listOf tracker hash) entered
  map : new.peers.toMap = Function.update entered.peers.toMap peer.addr
    (some (sanitizeFlag peer.flag ||| entered.peers.toMap.completedBit peer.addr, 0))
  counted : new.downCount = (listOf tracker hash).downCount + (if Completes entered peer then 1 else 0)
  issued : ∀ count, events.foldl statsIssueEvent count = if Completes entered peer then incSize count else count

theorem entering_sound (hash : Hash) (heap : Heap) :
    Sound (entering heap event.now (tracker.find hash)) ∧ (entering heap event.now (tracker.find hash)).peerCount < 2 ^ 31 ∧
      Descends (listOf tracker hash) (entering heap event.now (tracker.find hash)) ∧
      (entering heap event.now (tracker.find hash)).peers.toMap =
        (entering event.heap event.now (tracker.find hash)).peers.toMap := by
  unfold listOf
  cases found : tracker.find hash with
  | none => exact ⟨sound_zero 0 0, by simp [entering, PeerList.zero], .refl _, rfl⟩
  | some peerList =>
    have held := (find_eq_some tidy).mp found
    have sound := tidy.sound hash peerList held
    have small := bounded.peers.small held
    have cleaned := cleanSingleTorrent_cases heap event.now peerList sound.shaped
    obtain ⟨left, fewer⟩ := cleaned_sound cleaned sound small
    exact ⟨left, lt_of_le_of_lt fewer small, cleaned_descends cleaned sound small, cleaned_toMap_eq sound small _ _⟩

theorem announce_step (call : event.call = .announce proto hash peer amount random)
    (room : (listOf tracker hash).downCount + 1 < 2 ^ 64) :
    match tracker.served event with
    | none => ∀ other new, (tracker.apply event).find other = some new → Descends (listOf tracker other) new
    | some served => ∃ new, Performed tracker event hash peer served.events
        (entering event.heap event.now (tracker.find hash)) new := by
  have again := tidy_apply tidy bounded
  have cases := announce_cases call (tidy.housed.complete _)
  generalize applied : tracker.apply event = left, tracker.served event = issued at cases ⊢
  rw [applied] at again
  cases cases with
  | @failed torrents same =>
    intro other new found
    rw [find_eq_some again] at found
    have held := (unlock_unchanged tidy.housed same 0).2 other new found
    rw [listOf_some ((find_eq_some tidy).mpr held)]
    exact .refl new
  | @performed torrents delta first second found edited =>
    obtain ⟨before, after, others⟩ := find_unlock edited delta tidy.indexed (bounded.torrents _)
    rw [← before] at after ⊢
    obtain ⟨sound, small, descends, same⟩ := entering_sound tidy bounded hash first
    have announced := announcePeer_cases second event.now (entering first event.now (tracker.find hash)) peer sound.shaped
    cases issued : (announcePeer second event.now (entering first event.now (tracker.find hash)) peer).2 with
    | none =>
      intro other new found
      by_cases here : other = hash
      · subst here
        rw [after] at found
        cases found
        exact descends.trans (announced_refused announced issued)
      · rw [others other here] at found
        rw [listOf_some found]
        exact .refl new
    | some events =>
      have agree : Completes (entering first event.now (tracker.find hash)) peer ↔
          Completes (entering event.heap event.now (tracker.find hash)) peer := by
        simp only [Completes, same]
      have map := announced_toMap announced (by rw [issued]; rfl) sound small
      have counts := announced_counts announced issued sound small (by rw [descends.downCount]; exact room)
      simp only [agree, descends.downCount] at counts
      rw [same] at map
      refine ⟨_, by rw [applied]; exact after, by rw [applied]; exact others, ?_, map, counts.1, counts.2⟩
      exact (entering_sound tidy bounded hash event.heap).2.2.1

end Steps

section Runs
variable {log : Log} {event : Event}

/-- The event is an announce that sets the stored `COMPLETED` flag of its peer, at the
insertion of the peer or later. -/
def Sets (log : Log) (event : Event) (hash : Hash) : Prop :=
  ∃ proto peer amount random, event.call = .announce proto hash peer amount random ∧ (log.tracker.served event).isSome ∧
    (log.entered event hash).peers.toMap.completedBit peer.addr = 0 ∧
    ((log.tracker.apply event).toMap hash).completedBit peer.addr ≠ 0

/-- What an event does to the `down_count` of the torrents it leaves. -/
structure CountsOnce (log : Log) (event : Event) : Prop where
  once : ∀ hash new, (log.tracker.apply event).find hash = some new → Sets log event hash →
    new.downCount = (listOf log.tracker hash).downCount + 1
  otherwise : ∀ hash new, (log.tracker.apply event).find hash = some new → ¬ Sets log event hash →
    new.downCount = (listOf log.tracker hash).downCount
  grows : ∀ hash old new, log.tracker.find hash = some old → (log.tracker.apply event).find hash = some new →
    old.downCount ≤ new.downCount
  seeding : ∀ proto hash peer amount random, event.call = .announce proto hash peer amount random →
    Sets log event hash → peer.completed = true ∧ peer.seeding = true

structure Tallied (log : Log) : Prop where
  tidy : Tidy log.tracker
  stays : ∀ hash addr flag age, log.tracker.toMap hash addr = some (flag, age) →
    log.stays hash addr = if isCompleted flag then 1 else 0
  total : log.otOverallCompleted = log.increments

/-- Either nothing is counted and nothing but the tracker changes, or the event is an
announce that was served. -/
theorem next_cases (tidy : Tidy log.tracker) (permitted : Log.Permitted log event) :
    (log.next event = { log with tracker := log.tracker.apply event } ∧ (∀ hash, ¬ Sets log event hash) ∧
      ∀ hash new, (log.tracker.apply event).find hash = some new → Descends (listOf log.tracker hash) new) ∨
    ∃ proto hash peer amount random served new, event.call = .announce proto hash peer amount random ∧
      log.tracker.served event = some served ∧
      Performed log.tracker event hash peer served.events (log.entered event hash) new := by
  by_cases announces : ∃ proto hash peer amount random, event.call = .announce proto hash peer amount random
  · obtain ⟨proto, hash, peer, amount, random, call⟩ := announces
    have room : (listOf log.tracker hash).downCount + 1 < 2 ^ 64 := by
      unfold listOf
      cases found : log.tracker.find hash with
      | none => simp [PeerList.zero]
      | some peerList => exact permitted.down hash peerList found
    have step := announce_step tidy permitted.bounded call room
    cases result : log.tracker.served event with
    | none =>
      rw [result] at step
      refine .inl ⟨by simp only [Log.next, call, result], ?_, step⟩
      rintro other ⟨_, _, _, _, _, served, _⟩
      rw [result] at served
      cases served
    | some served =>
      rw [result] at step
      obtain ⟨new, performed⟩ := step
      exact .inr ⟨proto, hash, peer, amount, random, served, new, call, rfl, performed⟩
  · simp only [not_exists] at announces
    refine .inl ⟨?_, ?_, fun hash new found => ?_⟩
    · simp only [Log.next]
      split
      next call _ => exact absurd call (announces _ _ _ _ _)
      next => rfl
    · rintro hash ⟨proto, peer, amount, random, call, _⟩
      exact announces _ _ _ _ _ call
    · exact unannounced_descends tidy permitted.bounded permitted.live (fun _ _ _ _ => announces _ _ _ _ _) found

private theorem completed_or (flag bit : UInt8) (zero : bit = 0) :
    (flag ||| bit) &&& peerFlagCompleted ≠ 0 ↔ isCompleted flag = true := by
  subst zero
  simp [isCompleted]

theorem performed_sets {served : Served} (call : event.call = .announce proto hash peer amount random)
    (result : log.tracker.served event = some served)
    (performed : Performed log.tracker event hash peer served.events (log.entered event hash) new) :
    Sets log event hash ↔ Completes (log.entered event hash) peer := by
  have bit : ((log.tracker.apply event).toMap hash).completedBit peer.addr =
      (sanitizeFlag peer.flag ||| (log.entered event hash).peers.toMap.completedBit peer.addr) &&& peerFlagCompleted := by
    rw [toMap_listOf, listOf_some performed.found, PeerMap.completedBit, performed.map, Function.update_self]
  constructor
  · rintro ⟨_, _, _, _, call', _, unset, set⟩
    rw [call] at call'
    cases call'
    rw [bit, completed_or _ _ unset] at set
    exact ⟨unset, set⟩
  · rintro ⟨unset, set⟩
    refine ⟨proto, peer, amount, random, call, by rw [result]; rfl, unset, ?_⟩
    rw [bit, completed_or _ _ unset]
    exact set

theorem fresh_completed (completed : (fresh peer).completed = true) :
    peer.completed = true ∧ peer.seeding = true := by
  have checked : ∀ flag : UInt8, (sanitizeFlag flag &&& peerFlagCompleted != 0) = true →
      (flag &&& peerFlagCompleted != 0) = true ∧ (flag &&& peerFlagSeeding != 0) = true :=
    forall_byte (by decide +kernel)
  exact checked peer.flag completed

theorem countsOnce (tallied : Tallied log) (permitted : Log.Permitted log event) : CountsOnce log event := by
  rcases next_cases tallied.tidy permitted with ⟨_, unset, descends⟩ |
    ⟨proto, hash, peer, amount, random, served, new, call, result, performed⟩
  · refine ⟨fun hash _ _ sets => absurd sets (unset hash), fun hash new found _ => (descends hash new found).downCount, ?_,
      fun _ hash _ _ _ _ sets => absurd sets (unset hash)⟩
    intro hash old new before after
    rw [(descends hash new after).downCount, listOf_some before]
  · have iff := performed_sets call result performed
    have here : ∀ {other : Hash}, Sets log event other → other = hash := by
      rintro other ⟨_, _, _, _, call', _⟩
      rw [call] at call'
      cases call'
      rfl
    have elsewhere : ∀ {other : Hash} {after : PeerList}, other ≠ hash →
        (log.tracker.apply event).find other = some after → after.downCount = (listOf log.tracker other).downCount := by
      intro other after different found
      rw [performed.others other different] at found
      rw [listOf_some found]
    have same : ∀ {after : PeerList}, (log.tracker.apply event).find hash = some after →
        after.downCount = (listOf log.tracker hash).downCount + (if Completes (log.entered event hash) peer then 1 else 0) := by
      intro after found
      rw [← Option.some.inj (performed.found.symm.trans found)]
      exact performed.counted
    refine ⟨fun other after found sets => ?_, fun other after found unset => ?_, fun other old after before found => ?_, ?_⟩
    · obtain rfl := here sets
      rw [same found, if_pos (iff.mp sets)]
    · by_cases different : other = hash
      · subst different
        rw [same found, if_neg fun completes => unset (iff.mpr completes), Nat.add_zero]
      · exact elsewhere different found
    · by_cases different : other = hash
      · subst different
        rw [same found, listOf_some before]
        exact Nat.le_add_right _ _
      · rw [elsewhere different found, listOf_some before]
    · intro _ other announcing _ _ call' sets
      obtain rfl := here sets
      rw [call] at call'
      cases call'
      exact fresh_completed (iff.mp sets).2

theorem Tallied.descended (tallied : Tallied log) (descends : Descends (listOf log.tracker hash) new) {age : UInt8}
    (stored : new.peers.toMap addr = some (flag, age)) : log.stays hash addr = if isCompleted flag then 1 else 0 := by
  obtain ⟨before, earlier⟩ := descends.flags addr flag age stored
  exact tallied.stays hash addr flag before (by rw [toMap_listOf]; exact earlier)

private theorem kept_completed (sanitized : UInt8) (was : flag &&& peerFlagCompleted ≠ 0) :
    (sanitized ||| (flag &&& peerFlagCompleted)) &&& peerFlagCompleted ≠ 0 := by
  have bit : flag &&& peerFlagCompleted = peerFlagCompleted := by
    have either : ∀ flag : UInt8, flag &&& peerFlagCompleted = 0 ∨ flag &&& peerFlagCompleted = peerFlagCompleted :=
      forall_byte (by decide +kernel)
    exact (either flag).resolve_left was
  have set : ∀ byte : UInt8, (byte ||| peerFlagCompleted) &&& peerFlagCompleted ≠ 0 := forall_byte (by decide +kernel)
  rw [bit]
  exact set sanitized

theorem Tallied.announced (tallied : Tallied log) {hash : Hash} {peer : Peer} {entered : PeerList}
    (descends : Descends (listOf log.tracker hash) entered) :
    (if entered.peers.toMap peer.addr = none then 0 else log.stays hash peer.addr) + (if Completes entered peer then 1 else 0) =
      if isCompleted (sanitizeFlag peer.flag ||| entered.peers.toMap.completedBit peer.addr) then 1 else 0 := by
  have completed : (fresh peer).completed = isCompleted (sanitizeFlag peer.flag) := rfl
  simp only [Completes, PeerMap.completedBit, completed]
  rcases Option.eq_none_or_eq_some (entered.peers.toMap peer.addr) with stored | ⟨⟨flag, age⟩, stored⟩
  · simp [stored]
  · rw [tallied.descended descends stored]
    by_cases was : flag &&& peerFlagCompleted = 0
    · simp [stored, was, isCompleted]
    · simp [stored, was, isCompleted, kept_completed (sanitizeFlag peer.flag) was]

theorem tallied_next (tallied : Tallied log) (permitted : Log.Permitted log event) : Tallied (log.next event) := by
  have tidy := tidy_apply tallied.tidy permitted.bounded
  rcases next_cases tallied.tidy permitted with ⟨same, _, descends⟩ |
    ⟨proto, hash, peer, amount, random, served, new, call, result, performed⟩
  · rw [same]
    refine ⟨tidy, fun hash addr flag age stored => ?_, tallied.total⟩
    cases found : (log.tracker.apply event).find hash with
    | none =>
      simp only [Tracker.toMap, found] at stored
      cases stored
    | some new =>
      rw [toMap_listOf, listOf_some found] at stored
      exact tallied.descended (descends hash new found) stored
  · have gained : (listOf (log.tracker.apply event) hash).downCount - (listOf log.tracker hash).downCount =
        if Completes (log.entered event hash) peer then 1 else 0 := by
      rw [listOf_some performed.found, performed.counted, Nat.add_sub_cancel_left]
    simp only [Log.next, call, result, gained]
    refine ⟨tidy, fun other addr flag age stored => ?_, ?_⟩
    · dsimp only at stored ⊢
      by_cases here : other = hash
      · subst here
        rw [toMap_listOf, listOf_some performed.found, performed.map] at stored
        rw [Function.update_self]
        by_cases itself : addr = peer.addr
        · subst itself
          rw [Function.update_self] at stored ⊢
          cases stored
          exact tallied.announced performed.descends
        · rw [Function.update_of_ne itself] at stored ⊢
          exact tallied.descended performed.descends stored
      · rw [Function.update_of_ne here]
        apply tallied.stays other addr flag age
        simpa only [Tracker.toMap, performed.others other here] using stored
    · dsimp only
      rw [performed.issued, tallied.total]
      have room := permitted.completed
      rw [tallied.total] at room
      split
      · rw [incSize, Nat.mod_eq_of_lt room]
      · rfl

/-- In every state of a run within bounds, a stored peer has been counted once since it was
inserted if its `COMPLETED` flag is set and not at all if it is not, `ot_overall_completed`
is the number of all increments, and whatever event comes next counts a peer exactly when
it sets that flag. -/
theorem completions_counted_once {events : List Event} (run : Run Log.Step Log.Permitted .initial events log) :
    (∀ hash addr flag age, log.tracker.toMap hash addr = some (flag, age) →
      log.stays hash addr = if isCompleted flag then 1 else 0) ∧
    log.otOverallCompleted = log.increments ∧
    ∀ event, Log.Permitted log event → CountsOnce log event := by
  have start : Tallied .initial :=
    ⟨run_tidy (.done _), fun _ _ _ _ stored => (by cases stored), rfl⟩
  have tallied : Tallied log := by
    refine run.invariant Tallied ?_ start
    rintro before event after tallied permitted rfl
    exact tallied_next tallied permitted
  exact ⟨tallied.stays, tallied.total, fun event permitted => countsOnce tallied permitted⟩

end Runs

section Examples

def finisher : UInt8 := 0xC0

def finish (i : Nat) : Event := announceFlagged finisher i

theorem find_keeps {tracker : Tracker} (found : tracker.find hash = some peerList) : Keeps tracker peerList := by
  obtain ⟨torrent, looked, same⟩ := Option.bind_eq_some_iff.mp found
  exact ⟨_, torrent.hash, by rw [← same]; exact List.mem_of_find?_eq_some looked⟩

def finishes : List Event := [finish 7, announceFlagged 0 3, finish 5, finish 7]

private theorem next_tracker (log : Log) (event : Event) : (log.next event).tracker = log.tracker.apply event := by
  simp only [Log.next]
  split <;> rfl

/-- Two of three peers complete, and one of them says so twice. -/
theorem completions_counted_two : ∃ log, Run Log.Step Log.Permitted .initial finishes log ∧
    ([7, 3, 5].map fun i => log.stays zeroHash (peerAt i).addr) = [1, 0, 1] ∧ log.otOverallCompleted = 2 := by
  have within : Along (fun log event => Concerns zeroHash event ∧ (∀ peerList ∈ listsOf zeroHash log.tracker,
      peerList.peerCount < 2 ^ 31 ∧ peerList.downCount + 1 < 2 ^ 64) ∧ (log.tracker.allTorrents (bucketOfHash zeroHash)).size < 2 ^ 31 ∧
      log.otOverallCompleted + 1 < 2 ^ 64) Log.next .initial finishes := by decide +kernel
  have run : Run Log.Step Log.Permitted .initial finishes (finishes.foldl Log.next .initial) := by
    refine (Run.within (fun log => Only zeroHash log.tracker) ?_ (only_initial _) within).1
    rintro log event only ⟨concerns, lists, torrents, completed⟩
    refine ⟨⟨only_bounded only (fun peerList kept => (lists peerList kept).1) torrents,
      fun hash peerList found => (lists peerList (only.lists (find_keeps found))).2, completed, ?_⟩, rfl, ?_⟩
    · intro hash base downCount call
      simp [Concerns, call] at concerns
    · rw [next_tracker]
      exact only.apply concerns
  obtain ⟨stays, total, _⟩ := completions_counted_once run
  have stored : ∀ i ∈ [7, 3, 5], (finishes.foldl Log.next .initial).tracker.toMap zeroHash (peerAt i).addr =
      some (if i = 3 then 0 else finisher, 0) := by decide +kernel
  refine ⟨_, run, ?_, total.trans (by decide +kernel)⟩
  rw [List.map_congr_left fun i member => stays _ _ _ _ (stored i member)]
  decide

variable {log : Log} {peer : Peer}

theorem find_single {tracker : Tracker} {peerList : PeerList} {space : Nat}
    (single : tracker.allTorrents (bucketOfHash zeroHash) = ⟨[⟨zeroHash, some peerList⟩], space⟩) :
    tracker.find zeroHash = some peerList := by
  simp [Tracker.find, single, lookup]

theorem next_single {space : Nat} (base : peerList.base = 0)
    (single : log.tracker.allTorrents (bucketOfHash zeroHash) = ⟨[⟨zeroHash, some peerList⟩], space⟩)
    (announced : announcePeer [] 0 peerList peer = (new, some events)) :
    (log.next ⟨0, [], .announce .udp zeroHash peer 2 []⟩).tracker.find zeroHash = some new ∧
      (log.next ⟨0, [], .announce .udp zeroHash peer 2 []⟩).stays zeroHash = Function.update (log.stays zeroHash) peer.addr
          ((if peerList.peers.toMap peer.addr = none then 0 else log.stays zeroHash peer.addr) +
            (new.downCount - peerList.downCount)) := by
  have step := addPeer_single base single .udp peer 2
  rw [announced] at step
  have minute : Event.now ⟨0, [], .announce .udp zeroHash peer 2 []⟩ = 0 := rfl
  have applied : log.tracker.apply ⟨0, [], .announce .udp zeroHash peer 2 []⟩ =
      log.tracker.unlock (bucketOfHash zeroHash) ⟨[⟨zeroHash, some new⟩], space⟩ 0 := by
    simp only [Tracker.apply, minute, step]
  have after : (log.tracker.apply ⟨0, [], .announce .udp zeroHash peer 2 []⟩).find zeroHash = some new := by
    rw [applied]
    exact @find_single _ new space (by simp only [Tracker.unlock, Function.update_self])
  have served : log.tracker.served ⟨0, [], .announce .udp zeroHash peer 2 []⟩ =
      some ⟨new, events, returnPeersForTorrent [] new 2 .udp⟩ := by
    simp only [Tracker.served, minute, step, Option.map_some]
  have before := find_single single
  have entered : log.entered ⟨0, [], .announce .udp zeroHash peer 2 []⟩ zeroHash = peerList := by
    rw [Log.entered, before, minute, entering]
    simp [cleanSingleTorrent, base]
  simp only [Log.next, served, entered, listOf_some after, listOf_some before, Function.update_self]
  exact ⟨after, trivial⟩

private theorem flagged_addr_inj {j : Nat} (first : i < 2 ^ 32) (second : j < 2 ^ 32)
    (same : (flaggedAt flag i).addr = (flaggedAt flag j).addr) : i = j := by
  have keys : (flaggedAt flag i).key = (flaggedAt flag j).key := Peer.key_eq_iff.mpr same
  rw [flaggedAt_key flag first, flaggedAt_key flag second] at keys
  omega

private theorem flooded_absent (bound : n < 2 ^ 32) (fits : n ≤ room) :
    (floodedList finisher n room).peers.toMap (flaggedAt finisher n).addr = none := by
  rw [toMap_eq_none, floodedList, PeerVector.all, bucketList_plain (by simpa using fits), List.flatMap_singleton]
  intro peer member same
  obtain ⟨i, inside, rfl⟩ := List.mem_map.mp member
  have less := List.mem_range.mp inside
  have equal := flagged_addr_inj (by omega) bound same
  omega

private theorem flooded_present (inside : i < n) (fits : n ≤ room) :
    (floodedList finisher n room).peers.toMap (flaggedAt finisher i).addr ≠ none := by
  rw [Ne, toMap_eq_none, floodedList, PeerVector.all, bucketList_plain (by simpa using fits), List.flatMap_singleton]
  intro absent
  exact absent _ (List.mem_map_of_mem (List.mem_range.mpr inside)) rfl

private def Finished (n : Nat) (log : Log) : Prop :=
  Flooded finisher n log.tracker ∧ ∀ i < n, log.stays zeroHash (flaggedAt finisher i).addr = 1

private theorem finished_one : Finished 1 (Log.initial.next (finish 0)) := by
  refine ⟨?_, fun i first => ?_⟩
  · rw [next_tracker]
    exact flooded_one (by decide)
  · obtain rfl : i = 0 := by omega
    decide +kernel

private theorem finished_next (bound : n < 2 ^ 32) (finished : Finished n log) :
    Finished (n + 1) (log.next (finish n)) := by
  obtain ⟨flooded, counted⟩ := finished
  refine ⟨?_, ?_⟩
  · rw [next_tracker]
    exact flooded_next (by decide) bound flooded
  · obtain ⟨space, room, fits, single⟩ := flooded
    obtain ⟨larger, _, announced⟩ := @flooded_announce finisher n room (by decide) bound fits
    have stays := (next_single rfl single announced).2
    have gained : (floodedList finisher (n + 1) larger).downCount - (floodedList finisher n room).downCount = 1 := by
      have completed : (flaggedAt finisher 0).completed = true := by decide
      simp [floodedList, completed]
    rw [if_pos (flooded_absent bound fits), gained] at stays
    intro i inside
    change (log.next ⟨0, [], .announce .udp zeroHash (flaggedAt finisher n) 2 []⟩).stays zeroHash _ = 1
    rw [stays]
    by_cases last : i = n
    · subst last
      exact Function.update_self ..
    · rw [Function.update_of_ne fun same => last (flagged_addr_inj (by omega) bound same)]
      exact counted i (by omega)

private theorem finished (positive : 1 ≤ n) (bound : n ≤ 2 ^ 32) :
    Finished n ((floodOf finisher n).foldl Log.next .initial) := by
  induction n, positive using Nat.le_induction with
  | base => exact finished_one
  | succ n _ ih =>
    have step := finished_next (by omega) (ih (by omega))
    rw [floodOf, List.range_succ, List.map_append, List.foldl_append]
    exact step

private theorem finished_again (positive : 0 < n) (truncated : toInt32 n = 0) (bound : n ≤ 2 ^ 32)
    (finished : Finished n log) : (log.next (finish (n / 2))).stays zeroHash (flaggedAt finisher (n / 2)).addr = 2 := by
  obtain ⟨⟨space, room, fits, single⟩, counted⟩ := finished
  obtain ⟨before, after, larger, _, _, _, announced⟩ := @flooded_again finisher n room (by decide) positive truncated fits
  have stays := (next_single rfl single announced).2
  have completed : (flaggedAt finisher 0).completed = true := by decide
  have once : incSize n - n = 1 := by
    rw [incSize, Nat.mod_eq_of_lt (by omega)]
    omega
  have gained : (floodedList finisher n room).downCount = n := by simp [floodedList, completed]
  rw [if_neg (flooded_present (by omega) fits), counted _ (by omega), gained, completed] at stays
  simp only [if_true, once] at stays
  change (log.next ⟨0, [], .announce .udp zeroHash (flaggedAt finisher (n / 2)) 2 []⟩).stays zeroHash _ = 2
  rw [stays]
  exact Function.update_self ..

/-- 2 ^ 32 peers complete in the same minute, and the one in the middle of the list says so
once more: it is counted twice without having left. -/
theorem completion_counted_twice : ∃ log, Run Log.Step free .initial (floodOf finisher (2 ^ 32) ++ [finish (2 ^ 31)]) log ∧
      log.stays zeroHash (flaggedAt finisher (2 ^ 31)).addr = 2 := by
  refine ⟨_, (Run.foldl (fun _ _ _ => ⟨trivial, rfl⟩) Log.initial).snoc trivial rfl, ?_⟩
  have again := finished_again (by norm_num) (by rfl) (le_refl _) (finished (by norm_num) (le_refl (2 ^ 32)))
  rwa [show (2 : Nat) ^ 32 / 2 = 2 ^ 31 by norm_num] at again

end Examples

end BtServer.Proofs.Completions
