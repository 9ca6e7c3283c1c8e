import BtServer.BucketLocks
import BtServer.Proofs.TrackerSteps

/-! What the work of an operation does to the vector of its bucket, to the count of
torrents and to the record of a cleaning pass. -/

namespace BtServer.Proofs.BucketWork
open Lib VectorSearch TorrentTable TrackerSteps

variable {before after : List Torrent} {tracker : Tracker} {operation : Operation}
  {torrents old new : OtVector Torrent} {bucket : Nat} {delta : Int} {torrent : Torrent} {phase : Phase}
  {result : Tracker × Phase}

structure Orderly (bucket : Nat) (torrents : OtVector Torrent) : Prop where
  sorted : Sorted torrents.data
  home : ∀ torrent ∈ torrents.data, bucketOfHash torrent.hash = bucket
  complete : Complete torrents.data
  fits : torrents.size ≤ torrents.space

def Changed (bucket : Nat) (old new : List Torrent) : Prop :=
  new = old ∨ ∃ hash found left, bucketOfHash hash = bucket ∧ Edited hash old found left new

structure Reworked (bucket : Nat) (old new : OtVector Torrent) (delta : Int) : Prop where
  changed : Changed bucket old.data new.data
  counted : Counted old new delta

theorem Reworked.refl (bucket : Nat) (torrents : OtVector Torrent) : Reworked bucket torrents torrents 0 :=
  ⟨.inl rfl, .refl torrents⟩

theorem Reworked.orderly (reworked : Reworked bucket old new delta)
    (orderly : Orderly bucket old) (small : old.size < 2 ^ 32) : Orderly bucket new := by
  have fits := reworked.counted.fits orderly.fits
  rcases reworked.changed with same | ⟨hash, found, left, home, edited⟩
  · exact ⟨same ▸ orderly.sorted, same ▸ orderly.home, same ▸ orderly.complete, fits⟩
  · refine ⟨edited.sorted orderly.sorted small, fun torrent member => ?_, edited.complete orderly.complete, fits⟩
    rcases edited.members torrent member with inside | ⟨_, _, rfl⟩
    · exact orderly.home torrent inside
    · exact home

theorem Reworked.size_le (reworked : Reworked bucket old new delta) :
    new.size ≤ old.size + 1 := by
  rcases reworked.changed with same | ⟨hash, found, left, _, edited⟩
  · simp [OtVector.size, same]
  · exact edited.length_le_succ

def written (tracker : Tracker) (bucket : Nat) (torrents : OtVector Torrent) : Tracker :=
  ⟨Function.update tracker.allTorrents bucket torrents, tracker.torrentCount⟩

inductive Worked (tracker : Tracker) (operation : Operation) : Phase → Tracker × Phase → Prop where
  | idle (phase : Phase) : Worked tracker operation phase (tracker, phase)
  | performed {torrents : OtVector Torrent} {delta counted : Int}
      (reworked : Reworked operation.bucket (tracker.allTorrents operation.bucket) torrents delta)
      (same : counted ≡ delta [ZMOD 2 ^ 64]) :
      Worked tracker operation .locked (written tracker operation.bucket torrents, .finished counted)
  | turned {began before after : List Torrent} {torrent : Torrent} {calls : List CleanCall}
      (split : (tracker.allTorrents operation.bucket).data = before ++ torrent :: after) (heap : Heap) (now : Int) :
      Worked tracker operation (.cleaning began before.length calls)
        (written tracker operation.bucket
            (cleanTurn (tracker.allTorrents operation.bucket) before.length (cleanCall heap now torrent)).1,
          .cleaning began
            (cleanTurn (tracker.allTorrents operation.bucket) before.length (cleanCall heap now torrent)).2
            (calls ++ [cleanCall heap now torrent]))
  | ended {began : List Torrent} {toffs : Nat} {calls : List CleanCall} :
      Worked tracker operation (.cleaning began toffs calls) (tracker, .finished (-(removals calls)))

theorem perform_worked {act : Tracker → Tracker}
    (result : act ⟨tracker.allTorrents, 0⟩ = Tracker.unlock ⟨tracker.allTorrents, 0⟩ operation.bucket torrents delta)
    (reworked : Reworked operation.bucket (tracker.allTorrents operation.bucket) torrents delta) :
    Worked tracker operation .locked (perform tracker act) := by
  simp only [perform, result]
  refine .performed reworked ?_
  simp only [Tracker.unlock, Int.ModEq]
  omega

theorem work_cases (tracker : Tracker) (heap : Heap) (now : Int) (operation : Operation) (phase : Phase)
    (complete : Complete (tracker.allTorrents operation.bucket).data) :
    Worked tracker operation phase (operation.work tracker heap now phase) := by
  cases phase with
  | locked =>
    cases operation with
    | announce proto hash peer amount random =>
      have cases := addPeer_cases ⟨tracker.allTorrents, 0⟩ heap now random proto hash peer amount complete
      generalize seen : addPeerToTorrentAndReturnPeers _ heap now random proto hash peer amount = result at cases
      rw [Operation.work]
      cases cases with
      | failed same counted => exact perform_worked (congrArg Prod.fst seen) ⟨.inl same, counted⟩
      | performed _ _ _ edited counted =>
        exact perform_worked (congrArg Prod.fst seen) ⟨.inr ⟨hash, _, _, rfl, edited⟩, counted⟩
    | stop proto hash peer random =>
      obtain ⟨_, torrents, edited, counted, result⟩ :=
        removePeer_cases ⟨tracker.allTorrents, 0⟩ random proto hash peer complete
      rw [Operation.work]
      exact perform_worked (congrArg Prod.fst result) ⟨.inr ⟨hash, _, _, rfl, edited⟩, counted⟩
    | scrape hash =>
      obtain ⟨_, _, torrents, delta, _, edited, counted, _, result⟩ :=
        scrapeTorrent_cases ⟨tracker.allTorrents, 0⟩ heap now hash complete
      rw [Operation.work]
      exact perform_worked (congrArg Prod.fst result) ⟨.inr ⟨hash, _, _, rfl, edited⟩, counted⟩
    | savedState hash base downCount =>
      obtain ⟨torrents, delta, counted, result, changed⟩ :=
        addTorrentFromSavedState_cases ⟨tracker.allTorrents, 0⟩ heap hash base downCount
      rw [Operation.work]
      exact perform_worked result ⟨changed.imp_right fun edited => ⟨hash, _, _, rfl, edited⟩, counted⟩
    | clean bucket => exact .idle _
  | cleaning began toffs calls =>
    cases operation with
    | announce | stop | scrape | savedState => exact .idle _
    | clean bucket =>
      simp only [Operation.work]
      split
      next => exact .ended
      next torrent here =>
        obtain ⟨before, after, split, rfl⟩ := split_at here
        exact .turned split heap now
  | finished delta => cases operation <;> exact .idle _

def owed : Phase → Int
  | .locked => 0
  | .cleaning _ _ calls => -(removals calls)
  | .finished delta => delta

def kept (calls : List CleanCall) : List Torrent := (calls.filter fun call => !call.timedOut).map CleanCall.left

/-- A cleaning pass has called `clean_single_torrent` once on each of the torrents
before `toffs` and on those it has removed, and on no other. -/
structure CleaningPass (torrents began : List Torrent) (toffs : Nat) (calls : List CleanCall) : Prop where
  inside : toffs ≤ torrents.length
  once : calls.map CleanCall.found ++ torrents.drop toffs = began
  stayed : torrents.take toffs = kept calls
  cleaned : ∀ call ∈ calls, ∃ heap now, call = cleanCall heap now call.found

def Recorded (torrents : List Torrent) : Phase → Prop
  | .locked | .finished _ => True
  | .cleaning began toffs calls => CleaningPass torrents began toffs calls

theorem removals_append (calls : List CleanCall) (call : CleanCall) :
    removals (calls ++ [call]) = removals calls + removals [call] := List.countP_append

theorem cleanTurn_cases (before after : List Torrent) (torrent : Torrent) (space : Nat) (call : CleanCall) :
    (call.timedOut = false ∧ cleanTurn ⟨before ++ torrent :: after, space⟩ before.length call =
      (⟨before ++ call.left :: after, space⟩, before.length + 1)) ∨
    (call.timedOut = true ∧ ∃ room, cleanTurn ⟨before ++ torrent :: after, space⟩ before.length call =
      (⟨before ++ after, room⟩, before.length)) := by
  simp only [cleanTurn, set_here]
  cases timed : call.timedOut with
  | false => exact .inl ⟨rfl, by simp⟩
  | true =>
    refine .inr ⟨rfl, (vectorRemoveTorrent ⟨before ++ call.left :: after, space⟩ before.length).space, ?_⟩
    simp only [if_true, ← vectorRemoveTorrent_data before after call.left space]

theorem cleanTurn_counted {toffs : Nat} (inside : toffs < torrents.size) (call : CleanCall) :
    Counted torrents (cleanTurn torrents toffs call).1 (-(removals [call])) := by
  simp only [cleanTurn]
  cases timed : call.timedOut with
  | false => simpa [removals, timed] using Counted.set torrents toffs call.left
  | true =>
    have removed := (Counted.set torrents toffs call.left).trans (.remove (by simpa [OtVector.size] using inside))
    simpa [removals, timed] using removed

theorem cleanTurn_changed
    (split : torrents.data = before ++ torrent :: after) (complete : Complete torrents.data) (heap : Heap) (now : Int) :
    ∃ found left, Edited torrent.hash torrents.data found left
      (cleanTurn torrents before.length (cleanCall heap now torrent)).1.data := by
  obtain ⟨peerList, has⟩ := Option.isSome_iff_exists.mp (complete torrent (by simp [split]))
  obtain ⟨hash, list⟩ := torrent
  obtain rfl : list = some peerList := has
  obtain ⟨data, space⟩ := torrents
  obtain rfl : data = before ++ ⟨hash, some peerList⟩ :: after := split
  rcases cleanTurn_cases before after ⟨hash, some peerList⟩ space (cleanCall heap now ⟨hash, some peerList⟩) with
    ⟨_, result⟩ | ⟨_, room, result⟩
  · rw [result]
    exact ⟨_, _, .replaced rfl⟩
  · rw [result]
    exact ⟨_, _, .removed rfl⟩

theorem Worked.reworks
    (worked : Worked tracker operation phase result) (orderly : Orderly operation.bucket (tracker.allTorrents operation.bucket)) :
    ∃ torrents delta, result.1 = written tracker operation.bucket torrents ∧
      Reworked operation.bucket (tracker.allTorrents operation.bucket) torrents delta ∧
      owed result.2 ≡ owed phase + delta [ZMOD 2 ^ 64] := by
  have unchanged : tracker = written tracker operation.bucket (tracker.allTorrents operation.bucket) := by simp [written]
  cases worked with
  | idle => exact ⟨_, 0, unchanged, .refl _ _, by simp [Int.ModEq]⟩
  | performed reworked same => exact ⟨_, _, rfl, reworked, by simpa [owed] using same⟩
  | @turned began before after torrent calls split heap now =>
    obtain ⟨found, left, edited⟩ := cleanTurn_changed split orderly.complete heap now
    have inside : before.length < (tracker.allTorrents operation.bucket).size := by simp [OtVector.size, split]
    have home : bucketOfHash torrent.hash = operation.bucket := orderly.home torrent (by simp [split])
    refine ⟨_, _, rfl, ⟨.inr ⟨_, _, _, home, edited⟩, cleanTurn_counted inside _⟩, ?_⟩
    simp only [owed, removals_append, Int.ModEq]
    push_cast
    rw [neg_add]
  | ended => exact ⟨_, 0, unchanged, .refl _ _, by simp [owed, Int.ModEq]⟩

theorem CleaningPass.turn {began : List Torrent}
    {calls : List CleanCall} (pass : CleaningPass torrents.data began before.length calls)
    (split : torrents.data = before ++ torrent :: after) (heap : Heap) (now : Int) :
    CleaningPass (cleanTurn torrents before.length (cleanCall heap now torrent)).1.data began
      (cleanTurn torrents before.length (cleanCall heap now torrent)).2 (calls ++ [cleanCall heap now torrent]) := by
  have found : (cleanCall heap now torrent).found = torrent := by
    unfold cleanCall
    split <;> rfl
  obtain ⟨data, space⟩ := torrents
  obtain rfl : data = before ++ torrent :: after := split
  have once : calls.map CleanCall.found ++ torrent :: after = began := by simpa using pass.once
  have stayed : before = kept calls := by simpa using pass.stayed
  have cleaned : ∀ call ∈ calls ++ [cleanCall heap now torrent], ∃ heap now, call = cleanCall heap now call.found := by
    intro call member
    rcases List.mem_append.mp member with earlier | last
    · exact pass.cleaned call earlier
    · rw [List.mem_singleton.mp last]
      exact ⟨heap, now, by rw [found]⟩
  rcases cleanTurn_cases before after torrent space (cleanCall heap now torrent) with ⟨stays, result⟩ | ⟨removed, room, result⟩
  · rw [result]
    refine ⟨by simp, by simpa [found] using once, ?_, cleaned⟩
    rw [List.take_append, List.take_of_length_le (by simp)]
    simp [kept, stays, stayed]
  · rw [result]
    refine ⟨by simp, by simpa [found] using once, ?_, cleaned⟩
    simp [kept, removed, stayed]

theorem CleaningPass.begin (torrents : List Torrent) : CleaningPass torrents torrents 0 [] := ⟨Nat.zero_le _, rfl, rfl, nofun⟩

theorem CleaningPass.done {torrents began : List Torrent} {toffs : Nat} {calls : List CleanCall}
    (pass : CleaningPass torrents began toffs calls) (past : torrents.length ≤ toffs) :
    calls.map CleanCall.found = began ∧ torrents = kept calls := by
  obtain ⟨_, once, stayed, _⟩ := pass
  rw [List.drop_eq_nil_of_le past, List.append_nil] at once
  rw [List.take_of_length_le past] at stayed
  exact ⟨once, stayed⟩

theorem Worked.records
    (worked : Worked tracker operation phase result) (recorded : Recorded (tracker.allTorrents operation.bucket).data phase) :
    Recorded (result.1.allTorrents operation.bucket).data result.2 := by
  cases worked with
  | idle => exact recorded
  | performed | ended => trivial
  | turned split heap now =>
    simp only [written, Function.update_self]
    exact recorded.turn split heap now

end BtServer.Proofs.BucketWork
