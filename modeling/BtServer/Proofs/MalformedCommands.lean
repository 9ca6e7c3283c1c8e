import BtServer.Commands

/-! Requests whose JSON lacks what their handler needs. A handler that does not fault
answers as the control server does; whether it faults, and whether it refuses, depends
on which of the members it asks for are strings. -/

namespace BtServer.Proofs.MalformedCommands
open Lib TrackSettings

def member (root : Option Document) (name : String) : Option Document := root.bind (cJSONGetObjectItem · (ascii name))

def IsString (item : Option Document) : Prop := ∃ text, item = some (.string text)

def Safe (outcome : Outcome) : Prop := outcome ≠ .error .missingItem ∧ outcome ≠ .error .nullString

def Refused (outcome : Outcome) : Prop := ∃ settings reply, outcome = .ok (settings, reply) ∧ reply.number = -1

def needed : BtCmd → List String
  | .setTracker => ["ip"]
  | .addTask => ["torrent", "save_path"]
  | .delTask => ["torrent_id"]
  | .makeTorrent => ["file_path", "torrent_path"]
  | .getTaskState => ["torrent_id"]

def Answered (cmd : BtCmd) (root : Option Document) (outcome : Outcome) : Prop :=
  (∃ name ∈ needed cmd, ¬ IsString (member root name)) → Refused outcome

/-- The bodies for which a handler follows no null pointer. -/
def SafeWhen (root : Option Document) : BtCmd → Prop
  | .setTracker => member root "ip" = none ∨ IsString (member root "ip")
  | .addTask => member root "torrent" = none ∨ member root "save_path" = none ∨
      IsString (member root "torrent") ∧ IsString (member root "save_path")
  | .delTask => True
  | .makeTorrent => root = none ∨ IsString (member root "file_path") ∧ IsString (member root "torrent_path")
  | .getTaskState => root = none ∨ IsString (member root "torrent_id")

/-- The bodies for which it also refuses a request that lacks a member. -/
def AnsweredWhen (root : Option Document) (stale : Int) : BtCmd → Prop
  | .setTracker => root = none ∨ IsString (member root "ip")
  | .delTask => root = none ∨ IsString (member root "torrent_id") ∨ stale ≠ success
  | cmd => SafeWhen root cmd

section Pointers

theorem item_cases (item : Option Document) :
    item = none ∨ (∃ text, item = some (.string text)) ∨ ∃ value, item = some value ∧ value.valuestring = none := by
  cases item with
  | none => exact .inl rfl
  | some value =>
    cases value with
    | string text => exact .inr (.inl ⟨text, rfl⟩)
    | null | boolean | number | array | object => exact .inr (.inr ⟨_, rfl, rfl⟩)

theorem isString_some {value : Document} (textless : value.valuestring = none) : ¬ IsString (some value) := by
  rintro ⟨text, same⟩
  cases same
  cases textless

theorem isString_none : ¬ IsString none := by
  rintro ⟨_, same⟩
  cases same

theorem isString_string (text : Bytes) : IsString (some (.string text)) := ⟨text, rfl⟩

theorem valuestring_string (text : Bytes) : (Document.string text).valuestring = some text := rfl

theorem safe_ok (result : TrackSettings × CommandReply) : Safe (.ok result) := ⟨by simp, by simp⟩

theorem not_safe_missing : ¬ Safe (.error .missingItem) := fun safe => safe.1 rfl

theorem not_safe_null : ¬ Safe (.error .nullString) := fun safe => safe.2 rfl

theorem refused_code (settings : TrackSettings) : Refused (.ok (settings, .code (-1))) := ⟨settings, _, rfl, rfl⟩

theorem not_refused_code (settings : TrackSettings) : ¬ Refused (.ok (settings, .code 0)) := by
  rintro ⟨_, _, same, number⟩
  cases same
  exact absurd number (by decide)

end Pointers

/-- What is shown of every handler: when it is safe, and then, when it refuses as it should. -/
def Settled (cmd : BtCmd) (root : Option Document) (stale : Int) (outcome : Outcome) : Prop :=
  (Safe outcome ↔ SafeWhen root cmd) ∧
    (Safe outcome ∧ Answered cmd root outcome ↔ AnsweredWhen root stale cmd)

theorem Settled.of_safe {cmd : BtCmd} {root : Option Document} {stale : Int} {outcome : Outcome}
    (safe : Safe outcome ↔ SafeWhen root cmd) (answered : SafeWhen root cmd → Answered cmd root outcome)
    (same : AnsweredWhen root stale cmd = SafeWhen root cmd) : Settled cmd root stale outcome := by
  refine ⟨safe, ?_⟩
  rw [same]
  exact ⟨fun both => safe.mp both.1, fun holds => ⟨safe.mpr holds, answered holds⟩⟩

theorem Settled.unparsed (settings : TrackSettings) (cmd : BtCmd) (stale : Int) :
    Settled cmd none stale (.ok (settings, .code (-1))) := by
  have safe := safe_ok (settings, .code (-1))
  have answered : Answered cmd none (.ok (settings, .code (-1))) := fun _ => refused_code settings
  cases cmd with
  | setTracker => exact ⟨⟨fun _ => .inl rfl, fun _ => safe⟩, ⟨fun _ => .inl rfl, fun _ => ⟨safe, answered⟩⟩⟩
  | delTask => exact ⟨⟨fun _ => trivial, fun _ => safe⟩, ⟨fun _ => .inl rfl, fun _ => ⟨safe, answered⟩⟩⟩
  | addTask | makeTorrent | getTaskState =>
    exact .of_safe ⟨fun _ => .inl rfl, fun _ => safe⟩ (fun _ => answered) rfl

variable (settings : TrackSettings) (calls : CommandCalls) (root : Document)

theorem getTaskState_settled : Settled .getTaskState (some root) calls.stale (settings.getTaskState (some root)) := by
  have parsed : ¬ some root = none := by simp
  have lookup : member (some root) "torrent_id" = cJSONGetObjectItem root (ascii "torrent_id") := rfl
  apply Settled.of_safe _ _ rfl
  · simp only [SafeWhen, parsed, false_or, lookup, TrackSettings.getTaskState, runFlag, if_true]
    rcases item_cases (cJSONGetObjectItem root (ascii "torrent_id")) with missing | ⟨text, found⟩ | ⟨value, found, textless⟩
    · simp only [missing]
      exact iff_of_false not_safe_missing isString_none
    · simp only [found]
      exact iff_of_true (safe_ok _) (isString_string text)
    · rw [found]
      refine iff_of_false ?_ (isString_some textless)
      simp only [deref, bind, Except.bind, textless, readString]
      exact not_safe_null
  · rintro (none | text) ⟨name, asked, lacking⟩
    · exact absurd none parsed
    · cases List.mem_singleton.mp asked
      exact absurd text lacking

theorem makeTorrent_settled : Settled .makeTorrent (some root) calls.stale (settings.makeTorrent calls (some root)) := by
  have parsed : ¬ some root = none := by simp
  have file : member (some root) "file_path" = cJSONGetObjectItem root (ascii "file_path") := rfl
  have torrent : member (some root) "torrent_path" = cJSONGetObjectItem root (ascii "torrent_path") := rfl
  apply Settled.of_safe _ _ rfl
  · simp only [SafeWhen, parsed, false_or, file, torrent, TrackSettings.makeTorrent]
    generalize cJSONGetObjectItem root (ascii "file_path") = filePath
    generalize cJSONGetObjectItem root (ascii "torrent_path") = torrentPath
    rcases item_cases filePath with rfl | ⟨first, rfl⟩ | ⟨first, rfl, firstTextless⟩
    · exact iff_of_false not_safe_missing fun both => isString_none both.1
    · rcases item_cases torrentPath with rfl | ⟨second, rfl⟩ | ⟨second, rfl, textless⟩
      · exact iff_of_false not_safe_missing fun both => isString_none both.2
      · refine iff_of_true ?_ ⟨isString_string first, isString_string second⟩
        simp only [deref, bind, Except.bind, valuestring_string, readString]
        split <;> exact safe_ok _
      · refine iff_of_false ?_ fun both => isString_some textless both.2
        simp only [deref, bind, Except.bind, valuestring_string, readString, textless]
        exact not_safe_null
    · refine iff_of_false ?_ fun both => isString_some firstTextless both.1
      cases torrentPath with
      | none => exact not_safe_missing
      | some second =>
        simp only [deref, bind, Except.bind, readString, firstTextless]
        exact not_safe_null
  · rintro (none | both) ⟨name, asked, lacking⟩
    · exact absurd none parsed
    · rcases List.mem_pair.mp asked with rfl | rfl
      · exact absurd both.1 lacking
      · exact absurd both.2 lacking

theorem addTask_settled : Settled .addTask (some root) calls.stale (settings.addTask calls (some root)) := by
  have torrent : member (some root) "torrent" = cJSONGetObjectItem root (ascii "torrent") := rfl
  have savePath : member (some root) "save_path" = cJSONGetObjectItem root (ascii "save_path") := rfl
  apply Settled.of_safe _ _ rfl
  · simp only [SafeWhen, torrent, savePath, TrackSettings.addTask]
    generalize cJSONGetObjectItem root (ascii "torrent") = first
    generalize cJSONGetObjectItem root (ascii "save_path") = second
    rcases item_cases first with rfl | ⟨text, rfl⟩ | ⟨value, rfl, textless⟩
    · exact iff_of_true (safe_ok _) (.inl rfl)
    · rcases item_cases second with rfl | ⟨path, rfl⟩ | ⟨value, rfl, textless⟩
      · exact iff_of_true (safe_ok _) (.inr (.inl rfl))
      · exact iff_of_true (safe_ok _) (.inr (.inr ⟨isString_string text, isString_string path⟩))
      · simp only [reduceCtorEq, false_or, bind, Except.bind, valuestring_string, readString, textless]
        exact iff_of_false not_safe_null fun both => isString_some textless both.2
    · cases second with
      | none => exact iff_of_true (safe_ok _) (.inr (.inl rfl))
      | some path =>
        simp only [reduceCtorEq, false_or, bind, Except.bind, readString, textless]
        exact iff_of_false not_safe_null fun both => isString_some textless both.1
  · rintro holds ⟨name, asked, lacking⟩
    simp only [SafeWhen, torrent, savePath] at holds
    rcases holds with missing | missing | both
    · simp only [TrackSettings.addTask, missing]
      exact refused_code settings
    · simp only [TrackSettings.addTask, missing]
      split
      next same => cases same
      next => exact refused_code settings
    · rcases List.mem_pair.mp asked with rfl | rfl
      · exact absurd both.1 lacking
      · exact absurd both.2 lacking

theorem delTask_settled : Settled .delTask (some root) calls.stale (settings.delTask calls (some root)) := by
  simp only [Settled, SafeWhen, AnsweredWhen, Answered, needed, List.mem_singleton, exists_eq_left, reduceCtorEq, false_or,
    TrackSettings.delTask]
  split
  next stale =>
    simp only [safe_ok, true_and, not_refused_code, imp_false, not_not, stale, ne_eq, not_true_eq_false, or_false]
  next stale =>
    simp only [safe_ok, true_and, refused_code, implies_true, stale, ne_eq, not_false_eq_true, or_true]

theorem setTracker_settled : Settled .setTracker (some root) calls.stale (settings.setTracker (some root)) := by
  have ip : member (some root) "ip" = cJSONGetObjectItem root (ascii "ip") := rfl
  simp only [Settled, SafeWhen, AnsweredWhen, Answered, needed, List.mem_singleton, exists_eq_left, reduceCtorEq, false_or,
    ip, TrackSettings.setTracker]
  generalize cJSONGetObjectItem root (ascii "ip") = item
  rcases item_cases item with rfl | ⟨text, rfl⟩ | ⟨value, rfl, textless⟩
  · simp only [safe_ok, true_and, true_or, isString_none, not_refused_code, not_false_eq_true, imp_false, not_true_eq_false,
      and_self]
  · simp only [isString_string, or_true, not_true_eq_false, false_imp_iff, and_true, and_self, iff_true, bind, Except.bind,
      valuestring_string, readString]
    split
    · exact safe_ok _
    · exact ⟨by simp [throw, throwThe, MonadExceptOf.throw], by simp [throw, throwThe, MonadExceptOf.throw]⟩
  · simp only [bind, Except.bind, readString, textless, isString_some textless, reduceCtorEq, or_self, not_safe_null,
      false_and, and_self]

def textOf (root : Option Document) (name : String) : Bytes := ((member root name).bind Document.valuestring).getD []

/-- What the handler of a request finds in its body. -/
def handlingOf (root : Option Document) : Handling where
  parsed := root.isSome
  found := (member root "torrent").isSome && (member root "save_path").isSome
  succeeded := calls.makeTorrent (textOf root "file_path") (textOf root "torrent_path") settings.tracker = success
  torrentId := calls.addTask (textOf root "torrent") (textOf root "save_path")
  stale := calls.stale

/-- A request whose handler does not fault is answered as the control server answers it. -/
theorem command_processMsg {later : TrackSettings} {cmd : BtCmd} {root : Option Document} {reply : CommandReply}
    (done : settings.command calls cmd root = .ok (later, reply)) (cli : Client)
    (order : BtCmd.ofOrder (readPacketOrder cli.packet) = some cmd) (sends : List Send) :
    processMsg cli (handlingOf settings calls root) sends = reply.send cli sends := by
  simp only [processMsg, order]
  cases root with
  | none => cases cmd <;> cases done <;> rfl
  | some root =>
    have lookup (name : String) : member (some root) name = cJSONGetObjectItem root (ascii name) := rfl
    cases cmd with
    | setTracker =>
      simp only [TrackSettings.command, TrackSettings.setTracker] at done
      rcases item_cases (cJSONGetObjectItem root (ascii "ip")) with missing | ⟨text, found⟩ | ⟨value, found, textless⟩
      · rw [missing] at done
        cases done
        rfl
      · simp only [found, valuestring_string, readString, bind, Except.bind] at done
        split at done <;> cases done
        rfl
      · simp only [found, textless, readString] at done
        cases done
    | addTask =>
      simp only [TrackSettings.command, TrackSettings.addTask] at done
      simp only [recvAddTask, handlingOf, textOf, lookup]
      generalize cJSONGetObjectItem root (ascii "torrent") = first at done ⊢
      generalize cJSONGetObjectItem root (ascii "save_path") = second at done ⊢
      rcases item_cases first with rfl | ⟨text, rfl⟩ | ⟨value, rfl, textless⟩ <;>
        rcases item_cases second with rfl | ⟨path, rfl⟩ | ⟨other, rfl, pathless⟩ <;>
        simp_all only [readString, bind, Except.bind, valuestring_string, reduceCtorEq] <;> cases done <;> rfl
    | delTask =>
      simp only [TrackSettings.command, TrackSettings.delTask] at done
      simp only [recvDelTask, handlingOf, Option.isSome_some, if_true]
      split at done <;> cases done
      next stale => exact if_pos stale
      next stale => exact if_neg stale
    | makeTorrent =>
      simp only [TrackSettings.command, TrackSettings.makeTorrent] at done
      simp only [recvMakeTorrent, handlingOf, textOf, lookup]
      generalize cJSONGetObjectItem root (ascii "file_path") = first at done ⊢
      generalize cJSONGetObjectItem root (ascii "torrent_path") = second at done ⊢
      rcases item_cases first with rfl | ⟨text, rfl⟩ | ⟨value, rfl, textless⟩ <;>
        rcases item_cases second with rfl | ⟨path, rfl⟩ | ⟨other, rfl, pathless⟩ <;>
        simp_all only [deref, readString, bind, Except.bind, valuestring_string, reduceCtorEq]
      simp only [Option.isSome_some, if_true, Option.bind_some, Option.getD_some, valuestring_string]
      split at done <;> cases done
      next succeeded => exact if_pos (decide_eq_true succeeded)
      next failed => exact if_neg (mt of_decide_eq_true failed)
    | getTaskState =>
      simp only [TrackSettings.command, TrackSettings.getTaskState, runFlag, if_true] at done
      rcases item_cases (cJSONGetObjectItem root (ascii "torrent_id")) with missing | ⟨text, found⟩ | ⟨value, found, textless⟩ <;>
        simp_all only [deref, readString, bind, Except.bind, valuestring_string, reduceCtorEq]
      cases done
      rfl

/-- For every body of a request: the handler follows no null pointer exactly for the bodies
of `SafeWhen`, and it also refuses every request that lacks a member it is about exactly for
those of `AnsweredWhen`. -/
theorem commands_answered_iff (cmd : BtCmd) (root : Option Document) :
    (Safe (settings.command calls cmd root) ↔ SafeWhen root cmd) ∧
      (Safe (settings.command calls cmd root) ∧ Answered cmd root (settings.command calls cmd root) ↔
        AnsweredWhen root calls.stale cmd) := by
  cases root with
  | none => cases cmd <;> exact Settled.unparsed settings _ _
  | some root =>
    cases cmd with
    | setTracker => exact setTracker_settled settings calls root
    | addTask => exact addTask_settled settings calls root
    | delTask => exact delTask_settled settings calls root
    | makeTorrent => exact makeTorrent_settled settings calls root
    | getTaskState => exact getTaskState_settled settings calls root

/-- An empty object as the body of `GET_TASK_STATE`, and a number in the place of a path, stop
the server; without an address `SET_TRACKER` is answered with success. -/
theorem malformed_commands_fault :
    TrackSettings.initial.command ⟨fun _ _ _ => 0, fun _ _ => 0, 0⟩ .getTaskState (some (.object [])) = .error .missingItem ∧
      TrackSettings.initial.command ⟨fun _ _ _ => 0, fun _ _ => 0, 0⟩ .addTask
          (some (.object [(ascii "torrent", .number), (ascii "save_path", .string (ascii "/tmp"))])) =
        .error .nullString ∧
      TrackSettings.initial.command ⟨fun _ _ _ => 0, fun _ _ => 0, 0⟩ .setTracker (some (.object [])) =
        .ok (.initial, .code 0) := by
  refine ⟨rfl, ?_, rfl⟩
  have torrent : cJSONGetObjectItem (.object [(ascii "torrent", .number), (ascii "save_path", .string (ascii "/tmp"))])
      (ascii "torrent") = some .number := rfl
  have savePath : cJSONGetObjectItem (.object [(ascii "torrent", .number), (ascii "save_path", .string (ascii "/tmp"))])
      (ascii "save_path") = some (.string (ascii "/tmp")) := rfl
  simp only [TrackSettings.command, TrackSettings.addTask, torrent, savePath]
  rfl

end BtServer.Proofs.MalformedCommands
