import BtServer.LiveNodes
import BtServer.Proofs.LiveSyncBatches

/-! The records on their way between two trackers. What the one has told is what the
other has handled, what waits in its inbox, what is in the packets it has not received
and what has not been sent, in this order. -/

namespace BtServer.Proofs.LiveWiring
open Lib LiveSyncBatches

section Flow
variable {ipSize : Nat} {gTrackerId own : Vector UInt8 4} {told handled inbox : List (SyncRecord 4)} {wire : LiveWire}
variable {received : Nat}

/-- The records of the packets received so far are those handled and those in the inbox. -/
structure Flows (gTrackerId : Vector UInt8 4) (told : List (SyncRecord 4)) (wire : LiveWire) (received : Nat)
    (handled inbox : List (SyncRecord 4)) : Prop where
  accounted : Accounted gTrackerId told wire
  bound : received ≤ wire.sent.length
  records : (wire.sent.take received).flatMap (livesyncHandlePeersync 4) = handled ++ inbox

theorem next_sent (wire : LiveWire) (call : LiveCall ipSize) : ∃ more, (wire.next call).sent = wire.sent ++ more := by
  cases call <;> exact ⟨_, rfl⟩

theorem Flows.tell (flows : Flows gTrackerId told wire received handled inbox) (call : LiveCall 4) :
    Flows gTrackerId (told ++ call.told.toList) (wire.next call) received handled inbox := by
  obtain ⟨more, sent⟩ := next_sent wire call
  refine ⟨flows.accounted.next (by omega) call, ?_, ?_⟩
  · rw [sent, List.length_append]
    exact Nat.le_add_right_of_le flows.bound
  · rw [sent, List.take_append_of_le_length flows.bound]
    exact flows.records

theorem livesyncWorker_eq {packet : Bytes} (different : gTrackerId ≠ own) (header : livesyncHeader gTrackerId <+: packet) :
    livesyncWorker own packet = livesyncHandlePeersync 4 packet := by
  obtain ⟨rest, rfl⟩ := header
  have length := header_length gTrackerId
  have id : (livesyncHeader gTrackerId ++ rest).take 4 = gTrackerId.toList := by
    simp [livesyncHeader, List.append_assoc]
  have type : ((livesyncHeader gTrackerId ++ rest).drop 4).take 4 = htonl otSyncPeer := by
    simp [livesyncHeader, List.append_assoc, htonl]
  have zero : bigEndian (htonl otSyncPeer) = otSyncPeer := by decide
  unfold livesyncWorker
  rw [id, type]
  by_cases short : (livesyncHeader gTrackerId ++ rest).length ≤ livesyncHeaderSize
  · rw [List.length_append, length] at short
    obtain rfl : rest = [] := List.eq_nil_of_length_eq_zero (by omega)
    have nothing := livesyncHandlePeersync_eq gTrackerId ([] : List (SyncRecord 4))
    simp only [List.flatMap_nil] at nothing
    rw [nothing, if_pos (by simp [length])]
  · rw [if_neg short, if_neg fun same => different (Vector.toList_inj.mp same), if_pos zero]

theorem Flows.receive {packet : Bytes} (flows : Flows gTrackerId told wire received handled []) (different : gTrackerId ≠ own)
    (next : wire.sent[received]? = some packet) :
    Flows gTrackerId told wire (received + 1) handled (livesyncWorker own packet) := by
  obtain ⟨inside, here⟩ := List.getElem?_eq_some_iff.mp next
  have header := flows.accounted.header packet (List.mem_of_getElem? next)
  refine ⟨flows.accounted, inside, ?_⟩
  rw [List.take_add_one, next, List.flatMap_append, flows.records, livesyncWorker_eq different header]
  simp

theorem Flows.handle {record : SyncRecord 4} (flows : Flows gTrackerId told wire received handled (record :: inbox)) :
    Flows gTrackerId told wire received (handled ++ [record]) inbox :=
  ⟨flows.accounted, flows.bound, by simpa using flows.records⟩

/-- What has been handled, and what is going to be, was told in this order. -/
theorem Flows.order (flows : Flows gTrackerId told wire received handled inbox) : handled ++ inbox <+: told := by
  obtain ⟨pending, -, all⟩ := flows.accounted.waiting
  rw [← all, ← flows.records, ← List.take_append_drop received wire.sent, List.flatMap_append, List.append_assoc]
  simp

end Flow

section Wiring
variable {ids : Site → Vector UInt8 4} {pair : LivePair}

theorem site_cases (reader site : Site) : site = reader ∧ reader.other ≠ reader ∨ ¬ reader = site ∧ site = reader.other := by
  cases reader <;> cases site <;> decide

section Clients
variable (pair) (site) (heap) (call)

theorem client_node :
    (pair.client site heap call).node = Function.update pair.node site { pair.node site with
      tracker := ((pair.node site).tracker.applyLive ⟨pair.gNowSeconds, heap, call⟩).1
      wire := ((pair.node site).tracker.applyLive ⟨pair.gNowSeconds, heap, call⟩).2.toList.foldl
        (fun wire record => wire.next (.tell pair.gNowSeconds record)) (pair.node site).wire } := rfl

theorem client_told :
    (pair.client site heap call).told = Function.update pair.told site (pair.told site ++
      ((pair.node site).tracker.applyLive ⟨pair.gNowSeconds, heap, call⟩).2.toList.map fun record =>
        (pair.gNowSeconds, record)) := rfl

theorem client_handled :
    (pair.client site heap call).handled = pair.handled := rfl

theorem client_announced :
    (pair.client site heap call).announced =
      Function.update pair.announced site (pair.announced site ++ call.announces pair.gNowSeconds) := rfl

end Clients

/-- Every record that is told is on its way to the other tracker. -/
def Wired (ids : Site → Vector UInt8 4) (pair : LivePair) : Prop :=
  ∀ site, (pair.node site).gTrackerId = ids site ∧
    Flows (ids site.other) ((pair.told site.other).map Prod.snd) (pair.node site.other).wire (pair.node site).received
      (pair.handled site) (pair.node site).inbox

theorem wired_initial (ids : Site → Vector UInt8 4) (start : Int) : Wired ids (.initial ids start) := by
  intro site
  refine ⟨rfl, ⟨?_, le_refl _, rfl⟩⟩
  exact ⟨by simp [LivePair.initial], by simp [LivePair.initial], [], waiting_init (by omega) start, rfl⟩

theorem wired_client (wired : Wired ids pair) (site : Site) (heap : Heap) (call : Call) :
    Wired ids (pair.client site heap call) := by
  intro reader
  obtain ⟨id, flows⟩ := wired reader
  rw [client_node, client_told, client_handled]
  rcases site_cases reader site with ⟨rfl, apart⟩ | ⟨here, rfl⟩
  · simpa [apart] using ⟨id, flows⟩
  · simp only [Function.update_of_ne here, Function.update_self]
    refine ⟨id, ?_⟩
    cases ((pair.node reader.other).tracker.applyLive ⟨pair.gNowSeconds, heap, call⟩).2 with
    | none => simpa using flows
    | some record =>
      have told := flows.tell (.tell pair.gNowSeconds record)
      simpa [LiveCall.told] using told

theorem wired_ticker (wired : Wired ids pair) (site : Site) : Wired ids (pair.ticker site) := by
  intro reader
  obtain ⟨id, flows⟩ := wired reader
  simp only [LivePair.ticker]
  rcases site_cases reader site with ⟨rfl, apart⟩ | ⟨here, rfl⟩
  · simpa [apart] using ⟨id, flows⟩
  · simp only [Function.update_of_ne here, Function.update_self]
    have told := flows.tell (.ticker pair.gNowSeconds)
    exact ⟨id, by simpa [LiveCall.told] using told⟩

private theorem wired_update (wired : Wired ids pair) {site : Site} (node : LiveNode) {handled : List (SyncRecord 4)}
    (id : node.gTrackerId = ids site) (wire : node.wire = (pair.node site).wire)
    (flows : Flows (ids site.other) ((pair.told site.other).map Prod.snd) (pair.node site.other).wire node.received
      handled node.inbox) :
    Wired ids { pair with
      node := Function.update pair.node site node
      handled := Function.update pair.handled site handled } := by
  intro reader
  rcases site_cases reader site with ⟨rfl, apart⟩ | ⟨here, rfl⟩
  · simpa [apart] using ⟨id, flows⟩
  · simp only [Function.update_of_ne here, Function.update_self, wire]
    exact wired reader

theorem wired_receive (different : ids .a ≠ ids .b) (wired : Wired ids pair) (site : Site) : Wired ids (pair.receive site) := by
  obtain ⟨id, flows⟩ := wired site
  simp only [LivePair.receive]
  split
  next packet empty next =>
    rw [empty] at flows
    have apart : ids site.other ≠ ids site := by
      cases site
      · exact different.symm
      · exact different
    have updated := wired_update wired { pair.node site with
      received := (pair.node site).received + 1
      inbox := livesyncWorker (pair.node site).gTrackerId packet } id rfl (flows.receive (id ▸ apart) next)
    rwa [Function.update_eq_self] at updated
  next => exact wired

theorem wired_handle (wired : Wired ids pair) (site : Site) (heap : Heap) : Wired ids (pair.handle site heap) := by
  obtain ⟨id, flows⟩ := wired site
  simp only [LivePair.handle]
  split
  next => exact wired
  next record rest inbox =>
    rw [inbox] at flows
    exact wired_update wired _ id rfl flows.handle

end Wiring

end BtServer.Proofs.LiveWiring
