import BtServer.Proofs.PercentDecoding

/-! The search for keywords. `strncmp` stops at the NUL of a keyword, and the character
that is looked at afterwards is as far as the token is long: a token that goes on behind
an encoded NUL is compared with whatever stands behind the keyword. -/

namespace BtServer.Proofs.KeywordMatch
open Lib RequestMemory QueryScan PercentDecoding

variable {ε κ : Type}

def exactly (keywords : List (CString × κ)) (token : Bytes) : Keyword κ :=
  match keywords.find? fun keyword => keyword.1.chars = token with
  | none => .unknown
  | some keyword => .found keyword.2

section Comparison
variable {key : CString} {token : Bytes} {behind : Behind}

/-- Where the search reads is inside of the keyword, or as far behind it as the memory is told. -/
theorem found_takenFor {literals : Literals} (read : strncmpEqual (key.chars ++ [0]) token = true →
      token.length ≤ key.chars.length ∨ behind key token.length = some (literals key token.length)) :
    (keyFound behind key token : Access ε Bool) = .ok (key.takenFor literals token) := by
  unfold keyFound CString.takenFor
  by_cases equal : strncmpEqual (key.chars ++ [0]) token = true
  · rw [if_pos equal, equal, Bool.true_and, keyByte]
    cases there : (key.chars ++ [0])[token.length]? with
    | some c => rfl
    | none =>
      have long := List.getElem?_eq_none_iff.mp there
      rw [List.length_append, List.length_singleton] at long
      rw [(read equal).resolve_left (by omega)]
      rfl
  · rw [if_neg equal, Bool.eq_false_iff.mpr equal, Bool.false_and]

theorem found_exact (clean : ¬ Overruns key token) : (keyFound behind key token : Access ε Bool) = .ok (key.chars = token) := by
  rw [← takenFor_exact (fun _ _ => 0) clean]
  refine found_takenFor fun equal => .inl ?_
  obtain ⟨c, rest, whole⟩ := compared_inside clean equal
  have length := congrArg List.length whole
  simp only [List.length_append, List.length_cons, List.length_nil] at length
  omega

theorem found_overruns (overruns : Overruns key token) :
    (keyFound (fun _ _ => none) key token : Access ε Bool) = .error .outside := by
  have equal := (strncmpEqual_iff key.chars token key.plain).mpr (.inr overruns)
  have long : (key.chars ++ [0])[token.length]? = none := List.getElem?_eq_none overruns.length_le
  rw [keyFound, if_pos equal, keyByte, long]
  rfl

theorem findKeyword_exact (keywords : List (CString × κ)) (clean : ∀ keyword ∈ keywords, ¬ Overruns keyword.1 token) :
    (findKeyword behind token keywords : Access ε (Keyword κ)) = .ok (exactly keywords token) := by
  induction keywords with
  | nil => rfl
  | cons keyword keywords ih =>
    have rest := ih fun other member => clean other (List.mem_cons_of_mem _ member)
    rw [findKeyword, found_exact (clean keyword List.mem_cons_self)]
    by_cases same : keyword.1.chars = token
    · simp [bind, Except.bind, same, exactly]
    · simpa [bind, Except.bind, same, exactly] using rest

theorem findKeyword_overruns (keywords : List (CString × κ)) (overrun : ∃ keyword ∈ keywords, Overruns keyword.1 token) :
    (findKeyword (fun _ _ => none) token keywords : Access ε (Keyword κ)) = .error .outside := by
  have zero : 0 ∈ token := by
    obtain ⟨keyword, -, overruns⟩ := overrun
    exact overruns.subset (by simp)
  induction keywords with
  | nil => simp at overrun
  | cons keyword keywords ih =>
    rw [findKeyword]
    by_cases here : Overruns keyword.1 token
    · rw [found_overruns here]
      rfl
    · have other : keyword.1.chars ≠ token := fun same => keyword.1.plain (same ▸ zero)
      obtain ⟨late, member, overruns⟩ := overrun
      rcases List.mem_cons.mp member with rfl | rest
      · exact absurd overruns here
      · rw [found_exact here]
        simpa [bind, Except.bind, other] using ih ⟨late, rest, overruns⟩

end Comparison

section Search
variable {flag : ScanFlag} {memory token : Bytes} {string : Nat} {scan : Scan}

/-- The text at a position, up to the character that ends the loop of a scan, encodes
the token. -/
def IsToken (flag : ScanFlag) (memory : Bytes) (string : Nat) (token : Bytes) : Prop :=
  ∃ text c rest, memory.drop string = text ++ c :: rest ∧ Encoding flag text token ∧ flag.accepts c = false

theorem scanStop_returned {deststring s d : Nat} {c : UInt8}
    (known : 0 ≤ (RequestMemory.scanStop flag string deststring memory s d c).returned) :
    (RequestMemory.scanStop flag string deststring memory s d c).returned = (d : Int) - deststring := by
  have failed : ¬ (0 : Int) ≤ -1 := by decide
  have finished : ¬ (0 : Int) ≤ -2 := by decide
  unfold RequestMemory.scanStop at known ⊢
  dsimp only at known ⊢
  split_ifs at known ⊢
  all_goals first | rfl | exact absurd known failed | exact absurd known finished

theorem scanStop_memory {deststring s d : Nat} {c : UInt8} :
    (RequestMemory.scanStop flag string deststring memory s d c).memory = memory := by
  unfold RequestMemory.scanStop
  dsimp only
  split_ifs <;> rfl

theorem token_at {memory token : Bytes} {position : Nat} (room : position + token.length ≤ memory.length) :
    ((overwrite memory position token).drop position).take token.length = token := by
  have size : (memory.take position).length = position := by simp; omega
  rw [overwrite, List.append_assoc, List.drop_left' size, List.take_left]

theorem token_scanned (isToken : IsToken flag memory string token)
    (ran : (RequestMemory.scanUrlencodedQuery memory string string flag : Access ε Scan) = .ok scan) (known : 0 ≤ scan.returned) :
    scan.returned = token.length ∧ (fetchBlock scan.memory string token.length : Access ε Bytes) = .ok token := by
  obtain ⟨text, c, rest, here, encoding, stops⟩ := isToken
  have encodes := encoding_iff.mp encoding
  have whole := congrArg List.length here
  have shorter : token.length ≤ text.length := encodes_length encodes
  simp only [List.length_drop, List.length_append, List.length_cons] at whole
  have room : string + token.length ≤ memory.length := by omega
  rw [RequestMemory.scanUrlencodedQuery, scanLoop_encodes encodes stops _ (stands_drop here) (.inl (le_refl _)) room (by omega)] at ran
  cases ran
  refine ⟨by rw [scanStop_returned known]; omega, ?_⟩
  rw [scanStop_memory, fetchBlock_eq (by rw [length_overwrite room]; exact room), token_at room]

/-- Keywords match exactly, unless the token goes on behind a keyword and a NUL, or is
empty as a keyword is. -/
theorem keywords_exact_iff (keywords : List (CString × κ)) (isToken : IsToken flag memory string token)
    (ran : (RequestMemory.scanUrlencodedQuery memory string string flag : Access ε Scan) = .ok scan) (known : 0 ≤ scan.returned) :
    (∀ behind, (RequestMemory.scanFindKeywords behind keywords memory string flag : Access ε (Search κ)) =
        .ok ⟨exactly keywords token, scan.string, scan.memory⟩) ↔
      (∀ keyword ∈ keywords, ¬ Overruns keyword.1 token) ∧ (token = [] → ∀ keyword ∈ keywords, keyword.1.chars ≠ []) := by
  obtain ⟨length, block⟩ := token_scanned isToken ran known
  by_cases empty : token = []
  · subst empty
    have unknown : ∀ behind, (RequestMemory.scanFindKeywords behind keywords memory string flag : Access ε (Search κ)) =
        .ok ⟨.unknown, scan.string, scan.memory⟩ := by
      intro behind
      simp [RequestMemory.scanFindKeywords, ran, bind, Except.bind, length]
    have none : exactly keywords [] = .unknown ↔ ∀ keyword ∈ keywords, keyword.1.chars ≠ [] := by
      unfold exactly
      cases found : keywords.find? (fun keyword => decide (keyword.1.chars = [])) with
      | none => simpa using found
      | some keyword =>
        have empty := List.find?_some found
        have member := List.mem_of_find?_eq_some found
        simp only [reduceCtorEq, false_iff, not_forall]
        exact ⟨keyword, member, by simpa using empty⟩
    have short : ∀ keyword ∈ keywords, ¬ Overruns keyword.1 [] := by simp [Overruns]
    refine ⟨fun all => ⟨short, fun _ => none.mp ?_⟩, fun ⟨_, empties⟩ behind => ?_⟩
    · have same := (unknown fun _ _ => Option.none).symm.trans (all fun _ _ => Option.none)
      exact (Search.mk.inj (Except.ok.inj same)).1.symm
    · rw [unknown, none.mpr (empties rfl)]
  · have some : ¬ scan.returned = 0 := by
      rw [length]
      simpa using empty
    have count : scan.returned.toNat = token.length := by omega
    have search : ∀ behind, (RequestMemory.scanFindKeywords behind keywords memory string flag : Access ε (Search κ)) =
        findKeyword behind token keywords >>= fun returned => .ok ⟨returned, scan.string, scan.memory⟩ := by
      intro behind
      simp only [RequestMemory.scanFindKeywords, ran, bind, Except.bind, if_neg (show ¬ scan.returned = -2 by omega),
        if_neg (show ¬ scan.returned < 0 by omega), if_neg some, count, block]
    simp only [search, empty, false_implies, and_true]
    constructor
    · intro always keyword member overruns
      have stopped := always fun _ _ => Option.none
      rw [findKeyword_overruns keywords ⟨keyword, member, overruns⟩] at stopped
      cases stopped
    · intro clean behind
      rw [findKeyword_exact keywords clean]
      rfl

/-- `port=` is the keyword, and found. -/
theorem keywords_exact_port : IsToken .param [112, 111, 114, 116, 61, 10] 0 [112, 111, 114, 116] ∧
      ∀ behind, (RequestMemory.scanFindKeywords behind (compiled keywordsAnnounce) [112, 111, 114, 116, 61, 10] 0 .param :
        Access HttpError (Search AnnounceKey)) = .ok ⟨.found .port, 5, [112, 111, 114, 116, 61, 10]⟩ := by
  have isToken : IsToken .param [112, 111, 114, 116, 61, 10] 0 [112, 111, 114, 116] :=
    ⟨[112, 111, 114, 116], 61, [10], rfl, .literal (by decide) (by decide) (.literal (by decide) (by decide)
      (.literal (by decide) (by decide) (.literal (by decide) (by decide) .nil))), by decide⟩
  have clean : ∀ keyword ∈ compiled keywordsAnnounce, ¬ keyword.1.chars ++ [0] <+: [112, 111, 114, 116] := by decide +kernel
  have ran : (RequestMemory.scanUrlencodedQuery [112, 111, 114, 116, 61, 10] 0 0 .param : Access HttpError Scan) =
    .ok ⟨4, 5, [112, 111, 114, 116, 61, 10]⟩ := rfl
  exact ⟨isToken, (keywords_exact_iff (compiled keywordsAnnounce) isToken ran (by decide)).mpr ⟨clean, by simp⟩⟩

/-- `port%00` is not the keyword: the search reads on behind it, and finds it if it
meets a NUL there. -/
theorem keyword_overrun : IsToken .param [112, 111, 114, 116, 37, 48, 48, 61, 10] 0 [112, 111, 114, 116, 0] ∧
      (RequestMemory.scanFindKeywords (fun _ _ => none) (compiled keywordsAnnounce) [112, 111, 114, 116, 37, 48, 48, 61, 10] 0
        .param : Access HttpError (Search AnnounceKey)) = .error .outside ∧
      (RequestMemory.scanFindKeywords (fun _ _ => some 0) (compiled keywordsAnnounce) [112, 111, 114, 116, 37, 48, 48, 61, 10] 0
        .param : Access HttpError (Search AnnounceKey)) = .ok ⟨.found .port, 8, [112, 111, 114, 116, 0, 48, 48, 61, 10]⟩ := by
  refine ⟨⟨[112, 111, 114, 116, 37, 48, 48], 61, [10], rfl, ?_, by decide⟩, ?_, ?_⟩
  · exact .literal (by decide) (by decide) (.literal (by decide) (by decide) (.literal (by decide) (by decide)
      (.literal (by decide) (by decide) (.escaped rfl rfl (by decide) .nil))))
  · rfl
  · rfl

end Search

end BtServer.Proofs.KeywordMatch
