import BtServer.Lib.Buffer

/-! Computations on a block of memory. They stop when they access something outside of
it, when the turns of a loop are used up, or when they raise an error of their own;
`Ends` says that only the last of these happens. -/

namespace BtServer.Lib

variable {index count : Nat}

variable {ε α β : Type}

inductive Stop (ε : Type) where
  | outside
  | unfinished
  | raised (error : ε)
deriving DecidableEq, Repr

abbrev Access (ε α : Type) := Except (Stop ε) α

def fetch (memory : List α) (index : Nat) : Access ε α :=
  match memory[index]? with
  | some value => .ok value
  | none => .error .outside

def fetchBlock (memory : List α) (index count : Nat) : Access ε (List α) :=
  if ((memory.drop index).take count).length = count then .ok ((memory.drop index).take count) else .error .outside

def store (memory : List α) (index : Nat) (value : α) : Access ε (List α) :=
  if index < memory.length then .ok (memory.set index value) else .error .outside

/-- A copy of `values` to the memory from `index` on. -/
def storeBlock (memory : List α) (index : Nat) (values : List α) : Access ε (List α) :=
  if index + values.length ≤ memory.length then .ok (overwrite memory index values) else .error .outside

def raise (error : ε) : Access ε α := .error (.raised error)

theorem fetch_eq {memory : List α} {value : α} (found : memory[index]? = some value) :
    (fetch memory index : Access ε α) = .ok value := by
  rw [fetch, found]

theorem fetch_inside {memory : List α} (inside : index < memory.length) :
    (fetch memory index : Access ε α) = .ok memory[index] :=
  fetch_eq (List.getElem?_eq_getElem inside)

theorem fetchBlock_eq {memory : List α} (inside : index + count ≤ memory.length) :
    (fetchBlock memory index count : Access ε (List α)) = .ok ((memory.drop index).take count) := by
  have full : ((memory.drop index).take count).length = count := by
    rw [List.length_take, List.length_drop]
    omega
  rw [fetchBlock, if_pos full]

theorem fetchBlock_outside {memory : List α} (positive : 0 < count)
    (outside : memory.length < index + count) : (fetchBlock memory index count : Access ε (List α)) = .error .outside := by
  have short : ((memory.drop index).take count).length ≠ count := by
    rw [List.length_take, List.length_drop]
    omega
  rw [fetchBlock, if_neg short]

theorem store_inside {memory : List α} (inside : index < memory.length) (value : α) :
    (store memory index value : Access ε (List α)) = .ok (memory.set index value) := by
  rw [store, if_pos inside]

theorem storeBlock_between {before old after values : List α} (here : index = before.length) (same : old.length = values.length) :
    (storeBlock (before ++ (old ++ after)) index values : Access ε (List α)) = .ok (before ++ (values ++ after)) := by
  have inside : index + values.length ≤ (before ++ (old ++ after)).length := by
    simp only [List.length_append]
    omega
  rw [storeBlock, if_pos inside, overwrite, here, ← List.drop_drop, List.take_left, List.drop_left, ← same, List.drop_left,
    List.append_assoc]

theorem store_between {before after : List α} {old value : α} {index : Nat} (here : index = before.length) :
    (store (before ++ old :: after) index value : Access ε (List α)) = .ok (before ++ value :: after) := by
  have inside : index < (before ++ old :: after).length := by
    simp only [List.length_append, List.length_cons]
    omega
  rw [store_inside inside, here, List.set_append_right _ _ le_rfl, Nat.sub_self, List.set_cons_zero]

theorem fetchBlock_between {before block after : List α} (here : index = before.length)
    (size : count = block.length) : (fetchBlock (before ++ (block ++ after)) index count : Access ε (List α)) = .ok block := by
  have inside : index + count ≤ (before ++ (block ++ after)).length := by
    simp only [List.length_append]
    omega
  rw [fetchBlock_eq inside, here, List.drop_left, size, List.take_left]

theorem fetch_ok {memory : List α} {value : α} :
    (fetch memory index : Access ε α) = .ok value ↔ memory[index]? = some value := by
  unfold fetch
  split
  next found => simp [found]
  next none => simp [none]

theorem store_ok {memory after : List α} {value : α} :
    (store memory index value : Access ε (List α)) = .ok after ↔ index < memory.length ∧ after = memory.set index value := by
  unfold store
  split
  next inside => simp [inside, eq_comm]
  next outside => simp [outside]

namespace Access

theorem ok_bind {value : α} {next : α → Access ε β} : ((.ok value : Access ε α) >>= next) = next value := rfl

theorem bind_ok {run : Access ε α} {next : α → Access ε β} {result : β} :
    (run >>= next) = .ok result ↔ ∃ value, run = .ok value ∧ next value = .ok result := by
  cases run with
  | ok value => simp [bind, Except.bind]
  | error stop => simp [bind, Except.bind]

/-- The computation stays inside and ends: it returns a value that meets `post`, or
raises an error. -/
def Ends (run : Access ε α) (post : α → Prop) : Prop :=
  match run with
  | .ok value => post value
  | .error (.raised _) => True
  | .error _ => False

variable {run : Access ε α} {next : α → Access ε β} {post weaker : α → Prop} {last : β → Prop}

theorem Ends.ok {value : α} (holds : post value) : Ends (.ok value : Access ε α) post := holds

theorem Ends.raised (error : ε) : Ends (raise error : Access ε α) post := trivial

theorem Ends.bind (first : run.Ends post) (rest : ∀ value, post value → (next value).Ends last) : (run >>= next).Ends last := by
  match run with
  | .ok value => exact rest value first
  | .error (.raised error) => trivial

theorem Ends.mono (first : run.Ends post) (weakens : ∀ value, post value → weaker value) : run.Ends weaker := by
  match run with
  | .ok value => exact weakens value first
  | .error (.raised error) => trivial

theorem Ends.fetch {memory : List α} (inside : index < memory.length) :
    (fetch memory index : Access ε α).Ends fun value => memory[index]? = some value := by
  rw [fetch_inside inside]
  exact List.getElem?_eq_getElem inside

theorem Ends.fetchBlock {memory : List α} (inside : index + count ≤ memory.length) :
    (fetchBlock memory index count : Access ε (List α)).Ends fun block => block = (memory.drop index).take count := by
  rw [fetchBlock_eq inside]
  exact rfl

/-- What the computation returns meets `post`, if it returns. -/
def Gives (run : Access ε α) (post : α → Prop) : Prop := ∀ value, run = .ok value → post value

theorem Gives.ok {value : α} (holds : post value) : Gives (.ok value : Access ε α) post := by
  intro _ same
  cases same
  exact holds

theorem Gives.raised (error : ε) : Gives (raise error : Access ε α) post := by
  intro _ same
  cases same

theorem Gives.bind (first : run.Gives post) (rest : ∀ value, post value → (next value).Gives last) :
    (run >>= next).Gives last := by
  intro value returned
  obtain ⟨middle, gave, returned⟩ := bind_ok.mp returned
  exact rest middle (first middle gave) value returned

theorem Gives.after (rest : ∀ value, (next value).Gives last) : (run >>= next).Gives last := by
  intro value returned
  obtain ⟨middle, _, returned⟩ := bind_ok.mp returned
  exact rest middle value returned

/-- What is specified is done: the computation returns a result related to the specified one. Where nothing is specified
it stops, but not for an access outside. -/
inductive Follows (related : β → α → Prop) : Option β → Access ε α → Prop where
  | stops {stop : Stop ε} (other : stop ≠ .outside) : Follows related none (.error stop)
  | returns {wanted : β} {result : α} (holds : related wanted result) : Follows related (some wanted) (.ok result)

end Access

end BtServer.Lib
