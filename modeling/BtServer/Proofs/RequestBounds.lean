import BtServer.Proofs.HeaderEnd
import BtServer.RequestMemory

/-! The request parser stays inside the header. Nothing in it counts bytes: the scans
stop at the line end that ends the header, which they never overwrite, and every turn
of a keyword loop but the last moves on. -/

namespace BtServer.Proofs.RequestBounds
open Lib Access RequestMemory HeaderEnd

variable {ε : Type}

def Terminated (memory : Bytes) : Prop := memory[memory.length - 1]? = some 10

section Memory
variable {memory : Bytes} {index : Nat} {c : UInt8}

theorem Terminated.next (terminated : Terminated memory) (found : memory[index]? = some c) (other : c ≠ 10) :
    index + 1 < memory.length := by
  have here := (List.getElem?_eq_some_iff.mp found).1
  rcases Nat.lt_or_eq_of_le here with more | last
  · exact more
  · rw [Terminated, ← last, Nat.succ_sub_one, found] at terminated
    exact absurd (Option.some.inj terminated) other

theorem Terminated.set (terminated : Terminated memory) (before : index + 1 < memory.length) (value : UInt8) :
    Terminated (memory.set index value) := by
  rw [Terminated, List.length_set, List.getElem?_set_ne (by omega)]
  exact terminated

end Memory

theorem accepts_ne {flag : ScanFlag} {c : UInt8} (accepted : flag.accepts c = true) : c ≠ 10 := by
  rintro rfl
  cases flag <;> exact absurd accepted (by decide)

theorem fromhex_ne {c : UInt8} (digit : fromhex c ≠ 0xff) : c ≠ 10 := by
  rintro rfl
  exact digit (by decide)

/-- What a scan of `memory` from `string` on leaves: it has kept the terminator, and
has read at least as much as it has decoded. -/
structure Scanned (memory : Bytes) (string : Nat) (scan : Scan) : Prop where
  length : scan.memory.length = memory.length
  terminated : Terminated scan.memory
  failed : scan.returned < 0 → scan.string = string
  moved : 0 ≤ scan.returned → string + scan.returned.toNat ≤ scan.string
  inside : scan.string < memory.length
  stuck : 0 ≤ scan.returned → scan.string = string → scan.memory[string]? = some 38

section Scan
variable {flag : ScanFlag} {memory : Bytes} {string deststring s d : Nat} {c : UInt8} {scan : Scan}

theorem Scanned.fails {value : Int} (negative : value < 0) (terminated : Terminated memory) (inside : string < memory.length) :
    Scanned memory string ⟨value, string, memory⟩ := by
  have none : ¬ 0 ≤ value := by omega
  exact ⟨rfl, terminated, fun _ => rfl, fun known => absurd known none, inside, fun known => absurd known none⟩

theorem scanStop_scanned (terminated : Terminated memory) (found : memory[s]? = some c) (forward : string ≤ s)
    (started : deststring ≤ d) (count : d + string ≤ s + deststring) :
    Scanned memory string (RequestMemory.scanStop flag string deststring memory (s + 1) d c) := by
  have here := (List.getElem?_eq_some_iff.mp found).1
  have fails : ∀ value : Int, value < 0 → Scanned memory string ⟨value, string, memory⟩ :=
    fun value negative => .fails negative terminated (by omega)
  have ends : ∀ next, s ≤ next → next < memory.length → (next = string → memory[string]? = some 38) →
      Scanned memory string ⟨(d : Int) - deststring, next, memory⟩ := fun next later inside stuck =>
    ⟨rfl, terminated, fun known => absurd known (by simp only; omega), fun _ => by simp only; omega, inside, fun _ => stuck⟩
  have behind : c ≠ 10 → Scanned memory string ⟨(d : Int) - deststring, s + 1, memory⟩ := fun other =>
    ends (s + 1) (by omega) (terminated.next found other) (by omega)
  have minus : (-1 : Int) < 0 ∧ (-2 : Int) < 0 := by decide
  unfold RequestMemory.scanStop
  simp only [Nat.add_sub_cancel]
  split
  next =>
    split
    next => exact fails _ minus.2
    next some => exact ends s (le_refl _) here (by omega)
  next hard =>
    have other : c ≠ 10 := fun same => hard (.inr (.inr (.inl same)))
    split
    next =>
      split
      next => exact fails _ minus.1
      next => exact behind other
    next =>
      split
      next =>
        split
        next => exact fails _ minus.1
        next => exact behind other
      next =>
        split
        next ampersand =>
          subst ampersand
          split
          next => exact fails _ minus.1
          next =>
            split
            next => exact ends s (le_refl _) here (fun same => same ▸ found)
            next => exact behind other
        next => exact fails _ minus.1

theorem Scanned.set (scanned : Scanned (memory.set s c) string scan) : Scanned memory string scan := by
  have same : (memory.set s c).length = memory.length := List.length_set
  exact ⟨scanned.length.trans same, scanned.terminated, scanned.failed, scanned.moved, same ▸ scanned.inside, scanned.stuck⟩

theorem scanLoop_ends (fuel : Nat) (terminated : Terminated memory) (inside : s < memory.length) (forward : string ≤ s)
    (before : d ≤ s) (started : deststring ≤ d) (count : d + string ≤ s + deststring) (enough : memory.length < fuel + s) :
    (scanLoop flag string deststring fuel memory s d : Access ε Scan).Ends (Scanned memory string) := by
  induction fuel generalizing memory s d with
  | zero => omega
  | succ fuel ih =>
    have fails : Scanned memory string ⟨-1, string, memory⟩ := .fails (by decide) terminated (by omega)
    -- One more character in the memory, and the scan behind what it was read from.
    have step : ∀ value next, s < next → next < memory.length →
        (store memory d value >>= fun memory => scanLoop flag string deststring fuel memory next (d + 1) :
          Access ε Scan).Ends (Scanned memory string) := by
      intro value next later here
      rw [store_inside (by omega)]
      refine (ih (terminated.set (by omega) value) (by rw [List.length_set]; exact here) (by omega) (by omega) (by omega)
        (by omega) (by rw [List.length_set]; omega)).mono fun scan scanned => ?_
      exact scanned.set
    refine Ends.bind (.fetch inside) fun c found => ?_
    split
    next accepted =>
      have second := terminated.next found (accepts_ne accepted)
      split
      next =>
        refine Ends.bind (.fetch second) fun high first => ?_
        split
        next => exact fails
        next digit =>
          have third := terminated.next first (fromhex_ne digit)
          refine Ends.bind (.fetch third) fun low last => ?_
          split
          next => exact fails
          next digit => exact step _ _ (by omega) (terminated.next last (fromhex_ne digit))
      next => exact step _ _ (by omega) second
    next => exact scanStop_scanned terminated found forward started count

theorem scanUrlencodedQuery_ends (terminated : Terminated memory) (inside : string < memory.length) (before : deststring ≤ string) :
    (RequestMemory.scanUrlencodedQuery memory string deststring flag : Access ε Scan).Ends (Scanned memory string) :=
  scanLoop_ends _ terminated inside (le_refl _) before (le_refl _) (by omega) (by omega)

theorem skipLoop_ends (fuel : Nat) (terminated : Terminated memory) (inside : s < memory.length)
    (enough : memory.length < fuel + s) :
    (skipLoop memory fuel s : Access ε Nat).Ends fun next =>
      s ≤ next ∧ next < memory.length ∧ (memory[s]? = some 38 → s < next) := by
  induction fuel generalizing s with
  | zero => omega
  | succ fuel ih =>
    refine Ends.bind (.fetch inside) fun c found => ?_
    split
    next accepted =>
      refine (ih (terminated.next found (accepts_ne accepted)) (by omega)).mono fun next moved => ?_
      exact ⟨by omega, moved.2.1, fun _ => by omega⟩
    next =>
      split
      next hard =>
        refine .ok ⟨le_refl _, inside, fun ampersand => ?_⟩
        rw [ampersand] at found
        cases found
        exact absurd hard (by decide)
      next soft =>
        refine .ok ⟨by omega, terminated.next found ?_, fun _ => by omega⟩
        rintro rfl
        exact soft (by decide)

theorem scanUrlencodedSkipvalue_ends (terminated : Terminated memory) (inside : string < memory.length) :
    (RequestMemory.scanUrlencodedSkipvalue memory string : Access ε Nat).Ends fun next =>
      string ≤ next ∧ next < memory.length ∧ (memory[string]? = some 38 → string < next) :=
  skipLoop_ends _ terminated inside (by omega)

end Scan

section Keywords
variable {κ : Type} {behind : Behind} {memory : Bytes} {string : Nat} {flag : ScanFlag}

def Readable (behind : Behind) : Prop := ∀ key index, (behind key index).isSome

theorem found_ends (readable : Readable behind) (key : CString) (token : Bytes) :
    (keyFound behind key token : Access ε Bool).Ends fun _ => True := by
  unfold keyFound
  split
  next =>
    refine @Ends.bind _ _ _ _ _ (fun _ => True) _ ?_ fun c _ => trivial
    unfold keyByte
    split
    next => trivial
    next =>
      obtain ⟨c, there⟩ := Option.isSome_iff_exists.mp (readable key token.length)
      rw [there]
      trivial
  next => trivial

theorem findKeyword_ends (readable : Readable behind) (token : Bytes) (keywords : List (CString × κ)) :
    (findKeyword behind token keywords : Access ε (Keyword κ)).Ends fun _ => True := by
  induction keywords with
  | nil => trivial
  | cons keyword keywords ih =>
    refine Ends.bind (found_ends readable keyword.1 token) fun found _ => ?_
    split
    next => trivial
    next => exact ih

/-- What a search from `string` on leaves: behind a keyword the text is shorter, and a
text that stays where it is begins with an ampersand. -/
structure Advanced (memory : Bytes) (string : Nat) (search : Search κ) : Prop where
  length : search.memory.length = memory.length
  terminated : Terminated search.memory
  inside : search.string < memory.length
  moved : string ≤ search.string
  found : ∀ key, search.returned = .found key → string < search.string
  stuck : search.returned = .unknown → search.string = string → search.memory[string]? = some 38

theorem scanFindKeywords_ends (readable : Readable behind) (keywords : List (CString × κ)) (terminated : Terminated memory)
    (inside : string < memory.length) :
    (RequestMemory.scanFindKeywords behind keywords memory string flag : Access ε (Search κ)).Ends
      (Advanced memory string) := by
  refine Ends.bind (scanUrlencodedQuery_ends terminated inside (le_refl _)) fun scan scanned => ?_
  have moved : string ≤ scan.string := by
    by_cases known : 0 ≤ scan.returned
    · have := scanned.moved known
      omega
    · exact (scanned.failed (by omega)).ge
  split
  next => exact ⟨scanned.length, scanned.terminated, scanned.inside, moved, by simp, by simp⟩
  next =>
    split
    next => exact ⟨scanned.length, scanned.terminated, scanned.inside, moved, by simp, by simp⟩
    next known =>
      have stuck := scanned.stuck (by omega)
      split
      next => exact ⟨scanned.length, scanned.terminated, scanned.inside, moved, by simp, fun _ => stuck⟩
      next some =>
        have progress := scanned.moved (by omega)
        have there := scanned.inside
        have length := scanned.length
        refine Ends.bind (.fetchBlock (by omega)) fun token _ => ?_
        refine Ends.bind (findKeyword_ends readable token keywords) fun returned _ => ?_
        exact ⟨scanned.length, scanned.terminated, scanned.inside, moved, fun _ _ => by simp only; omega, fun _ => stuck⟩

theorem Advanced.skips {search : Search κ} (advanced : Advanced memory string search) (unknown : search.returned = .unknown) :
    (RequestMemory.scanUrlencodedSkipvalue search.memory search.string : Access ε Nat).Ends fun next =>
      string < next ∧ next < search.memory.length := by
  have here : search.string < search.memory.length := advanced.length ▸ advanced.inside
  refine (scanUrlencodedSkipvalue_ends advanced.terminated here).mono fun next ⟨later, there, ampersand⟩ => ⟨?_, there⟩
  have moved := advanced.moved
  by_cases same : search.string = string
  · have further := ampersand (same ▸ advanced.stuck unknown same)
    omega
  · omega

end Keywords

section Values
variable {memory : Bytes} {read deststring : Nat}

theorem takeValue_ends (terminated : Terminated memory) (inside : read < memory.length) :
    (takeValue memory read).Ends fun taken =>
      taken.2.memory.length = memory.length ∧ Terminated taken.2.memory ∧ read < taken.2.string ∧
        taken.2.string < memory.length := by
  refine Ends.bind (scanUrlencodedQuery_ends terminated inside (le_refl _)) fun scan scanned => ?_
  split
  next => exact .raised _
  next some =>
    have progress := scanned.moved (by omega)
    have there := scanned.inside
    have length := scanned.length
    refine Ends.bind (.fetchBlock (by omega)) fun value _ => ?_
    exact ⟨length, scanned.terminated, by simp only; omega, there⟩

theorem takeHash_ends (terminated : Terminated memory) (inside : read < memory.length) (before : deststring ≤ read) :
    (takeHash memory read deststring).Ends fun scan =>
      scan.memory.length = memory.length ∧ Terminated scan.memory ∧ read + 20 ≤ scan.string ∧ scan.string < memory.length := by
  refine Ends.bind (scanUrlencodedQuery_ends terminated inside before) fun scan scanned => ?_
  split
  next => exact .raised _
  next twenty =>
    have progress := scanned.moved (by omega)
    exact ⟨scanned.length, scanned.terminated, by omega, scanned.inside⟩

end Values

section Handlers
variable {behind : Behind} {memory : Bytes} {read : Nat}

theorem seekLoop_ends (fuel : Nat) (terminated : Terminated memory) (inside : read < memory.length)
    (enough : memory.length < fuel + read) : (seekLoop memory fuel read).Ends (· < memory.length) := by
  induction fuel generalizing read with
  | zero => omega
  | succ fuel ih =>
    refine Ends.bind (.fetch inside) fun c found => ?_
    split
    next other => exact ih (terminated.next found other.2) (by omega)
    next =>
      split
      next => exact .raised _
      next other => exact terminated.next found other

theorem seekQuery_ends (terminated : Terminated memory) (inside : read < memory.length) (positive : 0 < read) :
    (RequestMemory.seekQuery memory read).Ends (· < memory.length) := by
  obtain ⟨before, rfl⟩ := Nat.exists_eq_add_of_lt positive
  rw [Nat.zero_add] at *
  refine Ends.bind (.fetch (by omega)) fun c _ => ?_
  split
  next => exact seekLoop_ends _ terminated inside (by omega)
  next => exact inside

/-- The loop of an announce at some turn, with a memory of `size` bytes. -/
structure Ready (size : Nat) (state : Announce) : Prop where
  length : state.memory.length = size
  terminated : Terminated state.memory
  inside : state.read < size
  hash : ∀ position ∈ state.hash, position + 20 ≤ size

variable {size : Nat} {state : Announce}

theorem numberCase_ends (ready : Ready size state) (key : AnnounceKey) :
    (numberCase state key).Ends fun after => Ready size after ∧ state.read ≤ after.read := by
  obtain ⟨rfl, terminated, inside, hash⟩ := ready
  refine Ends.bind (takeValue_ends terminated inside) fun taken ⟨length, kept, moved, there⟩ => ?_
  cases state.query.setValue key taken.1 with
  | error => exact .raised _
  | ok query => exact ⟨⟨length, kept, there, hash⟩, moved.le⟩

variable (readable : Readable behind)
include readable

theorem announceCase_ends (ready : Ready size state) (key : AnnounceKey) :
    (announceCase behind state key).Ends fun after => Ready size after ∧ state.read ≤ after.read := by
  have number := numberCase_ends ready
  obtain ⟨rfl, terminated, inside, hash⟩ := ready
  have hashed := takeHash_ends terminated inside (le_refl _)
  cases key with
  | event =>
    refine Ends.bind (scanFindKeywords_ends readable _ terminated inside) fun search advanced => ?_
    have after : Ready state.memory.length { state with read := search.string, memory := search.memory } :=
      ⟨advanced.length, advanced.terminated, advanced.inside, hash⟩
    split
    next => exact .raised _
    next => exact ⟨⟨after.length, after.terminated, after.inside, hash⟩, advanced.moved⟩
    next => exact ⟨after, advanced.moved⟩
    next => exact ⟨after, advanced.moved⟩
  | infoHash =>
    simp only [announceCase]
    split
    next => exact .raised _
    next =>
      refine hashed.bind fun scan ⟨length, kept, moved, there⟩ => ?_
      refine ⟨⟨length, kept, there, fun position same => ?_⟩, by simp only; omega⟩
      cases same
      omega
  | peerId =>
    refine hashed.bind fun scan ⟨length, kept, moved, there⟩ => ?_
    exact ⟨⟨length, kept, there, hash⟩, by simp only; omega⟩
  | port => exact number .port
  | left => exact number .left
  | numwant => exact number .numwant
  | compact => exact number .compact

theorem announceLoop_ends (fuel : Nat) (ready : Ready size state) (enough : size < fuel + state.read) :
    (announceLoop behind fuel state).Ends (Ready size) := by
  induction fuel generalizing state with
  | zero => exact absurd ready.inside (by omega)
  | succ fuel ih =>
    obtain ⟨rfl, terminated, inside, hash⟩ := ready
    refine Ends.bind (scanFindKeywords_ends readable _ terminated inside) fun search advanced => ?_
    have after : Ready state.memory.length { state with read := search.string, memory := search.memory } :=
      ⟨advanced.length, advanced.terminated, advanced.inside, hash⟩
    have moved := advanced.moved
    split
    next => exact after
    next => exact .raised _
    next unknown =>
      refine Ends.bind (advanced.skips unknown) fun next ⟨further, there⟩ => ?_
      exact ih ⟨advanced.length, advanced.terminated, advanced.length ▸ there, hash⟩ (by simp only; omega)
    next key known =>
      have further := advanced.found key known
      refine Ends.bind (announceCase_ends readable after key) fun later ⟨ready, behind⟩ => ?_
      exact ih ready (by simp only at behind; omega)

theorem httpHandleAnnounce_ends (random : List Nat) (ip : Ip6) (age : UInt8)
    (terminated : Terminated memory) (inside : read < memory.length) (positive : 0 < read) :
    (RequestMemory.httpHandleAnnounce behind random ip age memory read).Ends fun _ => True := by
  refine Ends.bind (seekQuery_ends terminated inside positive) fun read there => ?_
  refine Ends.bind (announceLoop_ends readable _ ⟨rfl, terminated, there, by simp⟩ (by simp only; omega)) fun state ready => ?_
  split
  next => trivial
  next position known =>
    have fits := ready.hash position known
    refine Ends.bind (.fetchBlock (by rw [ready.length]; exact fits)) fun hash _ => trivial

theorem scrapeLoop_ends (fuel numwant : Nat) (terminated : Terminated memory)
    (inside : read < memory.length) (collected : 20 * numwant ≤ read) (enough : memory.length < fuel + read) :
    (scrapeLoop behind fuel numwant memory read).Ends fun result =>
      result.2.length = memory.length ∧ 20 * result.1 ≤ memory.length := by
  induction fuel generalizing numwant memory read with
  | zero => omega
  | succ fuel ih =>
    refine Ends.bind (scanFindKeywords_ends readable _ terminated inside) fun search advanced => ?_
    have moved := advanced.moved
    have length := advanced.length
    have here : search.string < search.memory.length := length ▸ advanced.inside
    split
    next => exact ⟨length, by simp only; omega⟩
    next => exact .raised _
    next unknown =>
      refine Ends.bind (advanced.skips unknown) fun next ⟨further, there⟩ => ?_
      rw [← length]
      exact ih numwant advanced.terminated there (by omega) (by omega)
    next key known =>
      have further := advanced.found key known
      refine Ends.bind (takeHash_ends advanced.terminated here (by omega)) fun scan ⟨same, kept, later, there⟩ => ?_
      rw [← length, ← same]
      exact ih (numwant + 1) kept (by omega) (by omega) (by omega)

theorem httpHandleScrape_ends (terminated : Terminated memory) (inside : read < memory.length)
    (positive : 0 < read) : (RequestMemory.httpHandleScrape behind memory read).Ends fun _ => True := by
  refine Ends.bind (seekQuery_ends terminated inside positive) fun read there => ?_
  refine Ends.bind (scrapeLoop_ends readable _ 0 terminated there (by omega) (by omega)) fun result ⟨length, fits⟩ => ?_
  obtain ⟨numwant, memory⟩ := result
  simp only at length fits ⊢
  split
  next => exact .raised _
  next =>
    refine Ends.bind (.fetchBlock ?_) fun hashes _ => trivial
    have least := Nat.min_le_left numwant otMaxmultiscrapeCount
    omega

theorem statsLoop_ends (fuel mode : Nat) (terminated : Terminated memory)
    (inside : read < memory.length) (enough : memory.length < fuel + read) :
    (statsLoop behind fuel mode memory read).Ends fun _ => True := by
  induction fuel generalizing mode memory read with
  | zero => omega
  | succ fuel ih =>
    refine Ends.bind (scanFindKeywords_ends readable _ terminated inside) fun search advanced => ?_
    have moved := advanced.moved
    have length := advanced.length
    have here : search.string < search.memory.length := length ▸ advanced.inside
    split
    next => trivial
    next => exact .raised _
    next unknown =>
      refine Ends.bind (advanced.skips unknown) fun next ⟨further, there⟩ => ?_
      exact ih mode advanced.terminated there (by omega)
    next key known =>
      have further := advanced.found key known
      refine Ends.bind (scanFindKeywords_ends readable _ advanced.terminated here) fun value again => ?_
      have later := again.moved
      have same := again.length
      split
      next => exact ih _ again.terminated (same ▸ again.inside) (by omega)
      next => exact .raised _
      next => exact .raised _
      next => exact .raised _

end Handlers

section Comparisons
variable {memory text : Bytes} {pointer ahead : Nat}

theorem commonLength_le (left right : Bytes) : commonLength left right ≤ left.length := by
  induction left generalizing right with
  | nil => simp [commonLength]
  | cons a left ih =>
    cases right with
    | nil => simp [commonLength]
    | cons b right =>
      have rest := ih right
      simp only [commonLength, List.length_cons]
      split <;> omega

theorem le_commonLength {left right : Bytes} {count : Nat} (inside : count ≤ left.length) (short : count ≤ right.length)
    (same : left.take count = right.take count) : count ≤ commonLength left right := by
  induction count generalizing left right with
  | zero => exact Nat.zero_le _
  | succ count ih =>
    match left, right with
    | a :: left, b :: right =>
      simp only [List.take_succ_cons, List.cons.injEq] at same
      have rest := ih (Nat.le_of_succ_le_succ inside) (Nat.le_of_succ_le_succ short) same.2
      rw [commonLength, if_pos same.1]
      omega

theorem commonLength_full {left right : Bytes} (full : commonLength left right = left.length) : ∀ c ∈ left, c ∈ right := by
  induction left generalizing right with
  | nil => simp
  | cons a left ih =>
    cases right with
    | nil => simp [commonLength] at full
    | cons b right =>
      simp only [commonLength, List.length_cons] at full
      split at full
      next same =>
        subst same
        intro c member
        rcases List.mem_cons.mp member with rfl | rest
        · exact List.mem_cons_self
        · exact List.mem_cons_of_mem _ (ih (by omega) c rest)
      next => omega

theorem memcmp_ends (fits : pointer + min text.length (commonLength (memory.drop pointer) text + 1 + ahead) ≤ memory.length) :
    (memcmp ahead memory pointer text : Access ε Bool).Ends fun differs =>
      differs = false → text.length ≤ commonLength (memory.drop pointer) text := by
  refine Ends.bind (.fetchBlock fits) fun block same => ?_
  subst same
  intro equal
  have here : min text.length (commonLength (memory.drop pointer) text + 1 + ahead) ≤ (memory.drop pointer).length := by
    rw [List.length_drop]
    omega
  have most := le_commonLength here (Nat.min_le_left _ _) (by simpa using equal)
  omega

theorem memcmp_inside (fits : pointer + text.length ≤ memory.length) :
    (memcmp ahead memory pointer text : Access ε Bool).Ends fun _ => True :=
  (memcmp_ends (by omega)).mono fun _ _ => trivial

end Comparisons

section Request
variable {machine : Machine} {memory : Bytes}

theorem skipSlashes_ends {read : Nat} (fuel : Nat) (terminated : Terminated memory) (inside : read < memory.length)
    (enough : memory.length < fuel + read) :
    (skipSlashes memory fuel read : Access ε Nat).Ends fun next => read ≤ next ∧ next < memory.length := by
  induction fuel generalizing read with
  | zero => omega
  | succ fuel ih =>
    refine Ends.bind (.fetch inside) fun c found => ?_
    split
    next slash =>
      have further := terminated.next found (by rw [slash]; decide)
      exact (ih further (by omega)).mono fun next moved => ⟨by omega, moved.2⟩
    next => exact ⟨le_refl _, inside⟩

theorem dispatch_ends (readable : Readable machine.behind) (terminated : Terminated memory) {write read : Nat} {len : Int}
    (positive : 0 < len) (moved : write + len.toNat ≤ read) (inside : read < memory.length) :
    (dispatch machine memory write len read).Ends fun _ => True := by
  refine Ends.bind (.fetch (by omega)) fun c _ => ?_
  split
  next => exact httpHandleAnnounce_ends readable _ _ _ terminated inside (by omega)
  next =>
    have two : (ascii "sc").length = 2 := by decide
    refine Ends.bind (memcmp_inside (by omega)) fun other _ => ?_
    split
    next =>
      split
      next path =>
        refine Ends.bind (memcmp_inside (by omega)) fun differs _ => ?_
        split
        next => exact .raised _
        next => exact Ends.bind (statsLoop_ends readable _ _ terminated inside (by omega)) fun mode _ => trivial
      next => exact .raised _
    next => exact httpHandleScrape_ends readable terminated inside (by omega)

theorem httpHandleRequest_ends (readable : Readable machine.behind) (terminated : Terminated memory)
    (fits : min 5 (commonLength memory (ascii "GET /") + 1 + machine.ahead) ≤ memory.length) :
    (RequestMemory.httpHandleRequest machine memory).Ends fun _ => True := by
  have five : (ascii "GET /").length = 5 := by decide
  refine Ends.bind (memcmp_ends (by rw [five, Nat.zero_add]; exact fits)) fun differs equal => ?_
  split
  next => exact .raised _
  next same =>
    have begins := equal (Bool.not_eq_true _ ▸ same)
    rw [five, List.drop_zero] at begins
    have long := begins.trans (commonLength_le memory _)
    refine Ends.bind (skipSlashes_ends _ terminated (by omega) (by omega)) fun write ⟨later, there⟩ => ?_
    refine Ends.bind (scanUrlencodedQuery_ends terminated there (le_refl _)) fun scan scanned => ?_
    split
    next => exact .raised _
    next =>
      split
      next => exact .raised _
      next path =>
        have moved := scanned.moved (by omega)
        exact dispatch_ends readable scanned.terminated (by omega) moved (scanned.length ▸ scanned.inside)

/-- An implementation of `memcmp` that looks at everything it is asked for leaves a memory
of less than five bytes. -/
theorem httpHandleRequest_outside (short : memory.length < 5) (far : 4 ≤ machine.ahead) :
    RequestMemory.httpHandleRequest machine memory = .error .outside := by
  have five : (ascii "GET /").length = 5 := by decide
  have compared : min (ascii "GET /").length (commonLength (memory.drop 0) (ascii "GET /") + 1 + machine.ahead) = 5 := by
    omega
  have outside : (memcmp machine.ahead memory 0 (ascii "GET /") : Access HttpError Bool) = .error .outside := by
    simp only [RequestMemory.memcmp, compared, fetchBlock_outside (by decide : 0 < 5) (show memory.length < 0 + 5 by omega)]
    rfl
  rw [RequestMemory.httpHandleRequest, outside]
  rfl

theorem terminated_take {request : Bytes} (complete : headerComplete request ≠ 0) :
    Terminated (request.take (headerComplete request)) := by
  obtain ⟨zero, -⟩ | ⟨-, -, ends, -⟩ := headerComplete_spec request
  · exact absurd zero complete
  · rcases ends with ⟨before, same⟩ | ⟨before, same⟩
    · rw [← same, Terminated, List.getElem?_append_right (by simp)]
      simp
    · rw [← same, Terminated, List.getElem?_append_right (by simp)]
      simp

/-- A run over the header of a request accesses nothing outside of the header and every
loop of it ends, when `memcmp` may look `ahead` bytes behind a difference. -/
def Inside (request : Bytes) (ahead : Nat) : Prop :=
  ∀ machine : Machine, machine.ahead = ahead → Readable machine.behind →
    (RequestMemory.httpHandleRequest machine (request.take (headerComplete request))).Ends fun _ => True

def eager : Machine := ⟨4, fun _ _ => some 0, false, [], [], Vector.replicate 16 0, 0⟩

/-- The parser stays inside the header when `memcmp` stops at the first difference; the
five bytes it is asked to compare are there in a header of at least five. -/
theorem request_inside_iff (request : Bytes) (complete : headerComplete request ≠ 0) :
    Inside request 0 ∧ ((∀ ahead, Inside request ahead) ↔ 5 ≤ headerComplete request) := by
  have terminated := terminated_take complete
  have length : (request.take (headerComplete request)).length = headerComplete request := by
    obtain ⟨zero, -⟩ | ⟨-, inside, -, -⟩ := headerComplete_spec request
    · exact absurd zero complete
    · rw [List.length_take]
      omega
  refine ⟨?_, fun inside => ?_, fun long ahead machine _ readable => ?_⟩
  · rintro machine rest readable
    refine httpHandleRequest_ends readable terminated ?_
    have least := commonLength_le (request.take (headerComplete request)) (ascii "GET /")
    rcases Nat.lt_or_eq_of_le least with less | full
    · omega
    · have member := commonLength_full full 10 (List.mem_of_getElem? terminated)
      exact absurd member (by decide)
  · by_contra short
    have outside : RequestMemory.httpHandleRequest eager (request.take (headerComplete request)) = .error .outside :=
      httpHandleRequest_outside (by rw [length]; omega) (le_refl 4)
    have ends := inside 4 eager rfl fun _ _ => rfl
    rw [outside] at ends
    exact ends
  · exact httpHandleRequest_ends readable terminated (by omega)

/-- `GET /`, and the empty line. -/
theorem request_inside_get :
    headerComplete [71, 69, 84, 32, 47, 10, 10] = 7 ∧ ∀ ahead, Inside [71, 69, 84, 32, 47, 10, 10] ahead :=
  ⟨by decide, (request_inside_iff [71, 69, 84, 32, 47, 10, 10] (by decide)).2.mpr (by decide)⟩

/-- Of an empty line two bytes are the header, and five are compared. -/
theorem empty_line_outside : headerComplete [10, 10] = 2 ∧ RequestMemory.httpHandleRequest eager [10, 10] = .error .outside ∧
      ¬ ∀ ahead, Inside [10, 10] ahead := by
  have outside : RequestMemory.httpHandleRequest eager [10, 10] = .error .outside :=
    httpHandleRequest_outside (by decide) (le_refl 4)
  have size : headerComplete [10, 10] = 2 := by decide
  refine ⟨size, outside, fun inside => ?_⟩
  have ends := inside 4 eager rfl fun _ _ => rfl
  rw [size, List.take_of_length_le (by decide), outside] at ends
  exact ends

end Request

end BtServer.Proofs.RequestBounds
