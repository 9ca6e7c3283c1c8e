import BtServer.Proofs.ClientService

/-! The slots of the control server. A new client is stored exactly when the first
slot is free; as long as that is so, `allset` and `total_connections` describe the
clients in the slots. -/

namespace BtServer.Proofs.ControlSlots
open Lib ClientService

variable {loop before after : Loop} {i : Nat} {turn : Turn} {cli : Client}

section Turns
variable {holds : Loop → Prop}

theorem clientMessages_preserves (serves : ∀ loop i cli service, holds loop → loop.clients[i]? = some (some cli) →
      holds (loop.serveClient i cli service).1)
    (reset : Finset Int) (serve : Nat → Service) (indices : List Nat) (nready : Int) (loop : Loop) (start : holds loop) :
    holds (Loop.clientMessages reset serve indices nready loop) := by
  induction indices generalizing nready loop with
  | nil => exact start
  | cons i rest ih =>
    unfold Loop.clientMessages
    split
    next cli held =>
      split
      · exact ih nready loop start
      · have later := serves loop i cli (serve i) start held
        generalize loop.serveClient i cli (serve i) = result at later ⊢
        obtain ⟨loop, reached⟩ := result
        dsimp only at later ⊢
        split
        · split
          · exact later
          · exact ih _ loop later
        · exact ih _ loop later
    · exact ih nready loop start

theorem turn_preserves (start : holds loop)
    (stops : holds { loop with running := false }) (accepts : holds (loop.acceptClient turn.accept).1)
    (serves : ∀ loop i cli service, holds loop → loop.clients[i]? = some (some cli) →
      holds (loop.serveClient i cli service).1) : holds (loop.turn turn) := by
  have ready : ∀ reset nready, holds (loop.turnReady turn reset nready) := by
    intro reset nready
    unfold Loop.turnReady
    split
    · generalize loop.acceptClient turn.accept = result at accepts ⊢
      obtain ⟨loop, through⟩ := result
      dsimp only at accepts ⊢
      split
      · exact accepts
      · exact clientMessages_preserves serves _ _ _ _ _ accepts
    · exact clientMessages_preserves serves _ _ _ _ _ start
  unfold Loop.turn
  split
  · exact start
  · exact stops
  · split
    · split
      · exact stops
      · split
        · exact start
        · exact ready _ _
    · exact ready _ _

end Turns

def Holds (loop : Loop) (slot : Nat) (cli : Client) : Prop := loop.clients[slot]? = some (some cli)

/-- `allset`, `total_connections` and `maxi` describe the clients in the slots. -/
structure Sound (loop : Loop) : Prop where
  registered : ∀ fd, fd ∈ loop.allset ↔
    fd = loop.listenfd ∨ fd = loop.pipefd ∨ ∃ slot cli, Holds loop slot cli ∧ cli.fd = fd
  counted : loop.totalConnections = loop.clients.countP Option.isSome
  visited : ∀ slot cli, Holds loop slot cli → slot ≤ loop.maxi

/-- A new client was put into a free slot that the loop visits, and all other slots
are as they were. -/
def Stored (before after : Loop) (connfd : Int) : Prop :=
  ∃ slot ≤ after.maxi, before.clients[slot]? = some none ∧
    after.clients = before.clients.set slot (some (.new before.accepted connfd))

/-- The first slot is free when a client is accepted. -/
def FirstFree (loop : Loop) (turn : Turn) : Prop :=
  ∀ connfd, turn.accept = .connected connfd → loop.clients.head? = some none

theorem stored_iff (loop : Loop) (connfd : Int) :
    Stored loop (loop.addClient connfd) connfd ↔ loop.clients.head? = some none := by
  unfold Stored Loop.addClient
  cases slots : loop.clients with
  | nil => simp
  | cons first rest =>
    cases first with
    | none =>
      simp only [Loop.storeClient, List.head?_cons, iff_true]
      exact ⟨0, Nat.zero_le _, rfl, rfl⟩
    | some cli =>
      simp only [Loop.storeClient, List.head?_cons, Option.some.injEq, reduceCtorEq, iff_false]
      intro ⟨slot, _, free, same⟩
      have stored : (some cli :: rest)[slot]? = some (some (Client.new loop.accepted connfd)) := by
        have inside : slot < (some cli :: rest).length := (List.getElem?_eq_some_iff.mp free).1
        rw [same, List.getElem?_set_self inside]
      rw [free] at stored
      cases stored

def fds (loop : Loop) : List (Option Int) := loop.clients.map (Option.map Client.fd)

def Uses (loop : Loop) (slot : Nat) (fd : Int) : Prop := (fds loop)[slot]? = some (some fd)

/-- With what keeps them so: a descriptor is in one slot only, and it is an open one. -/
structure Invariant (loop : Loop) : Prop where
  registered : ∀ fd, fd ∈ loop.allset ↔ fd = loop.listenfd ∨ fd = loop.pipefd ∨ ∃ slot, Uses loop slot fd
  counted : loop.totalConnections = (fds loop).countP Option.isSome
  visited : ∀ slot fd, Uses loop slot fd → slot ≤ loop.maxi
  distinct : ∀ slot other fd, Uses loop slot fd → Uses loop other fd → slot = other
  apart : ∀ slot fd, Uses loop slot fd → fd ≠ loop.listenfd ∧ fd ≠ loop.pipefd
  owned : ∀ fd ∈ loop.allset, fd ∈ loop.opened

theorem uses_iff {slot : Nat} {fd : Int} : Uses loop slot fd ↔ ∃ cli, Holds loop slot cli ∧ cli.fd = fd := by
  simp only [Uses, fds, List.getElem?_map, Option.map_eq_some_iff, Holds]
  constructor
  · rintro ⟨_, held, cli, rfl, same⟩
    exact ⟨cli, held, same⟩
  · rintro ⟨cli, held, same⟩
    exact ⟨some cli, held, cli, rfl, same⟩

theorem Invariant.sound (invariant : Invariant loop) : Sound loop where
  registered fd := by simpa only [uses_iff] using invariant.registered fd
  counted := by
    have count := invariant.counted
    simpa [fds, List.countP_map, Function.comp_def] using count
  visited slot cli held := invariant.visited slot cli.fd (uses_iff.mpr ⟨cli, held, rfl⟩)

theorem get_set {α : Type} {slots : List (Option α)} (inside : i < slots.length) (value : Option α) (slot : Nat) (content : α) :
    (slots.set i value)[slot]? = some (some content) ↔
      slot = i ∧ value = some content ∨ slot ≠ i ∧ slots[slot]? = some (some content) := by
  by_cases same : slot = i
  · subst same
    simp [inside]
  · simp [List.getElem?_set_ne (Ne.symm same), same]

theorem uses_set {value : Option Int} (inside : i < (fds before).length)
    (written : fds after = (fds before).set i value) (slot : Nat) (fd : Int) :
    Uses after slot fd ↔ slot = i ∧ value = some fd ∨ slot ≠ i ∧ Uses before slot fd := by
  simpa only [Uses, written] using get_set inside value slot fd

private theorem Invariant.keep (invariant : Invariant before) (slots : fds after = fds before)
    (registered : after.allset = before.allset) (total : after.totalConnections = before.totalConnections)
    (maxi : after.maxi = before.maxi) (listening : after.listenfd = before.listenfd) (piped : after.pipefd = before.pipefd)
    (opened : before.opened ⊆ after.opened) : Invariant after where
  registered := by simpa only [Uses, slots, registered, listening, piped] using invariant.registered
  counted := by simpa only [slots, total] using invariant.counted
  visited := by simpa only [Uses, slots, maxi] using invariant.visited
  distinct := by simpa only [Uses, slots] using invariant.distinct
  apart := by simpa only [Uses, slots, listening, piped] using invariant.apart
  owned fd member := opened (invariant.owned fd (registered ▸ member))

private theorem Invariant.add (invariant : Invariant loop) {connfd : Int} (fresh : connfd ∉ loop.opened)
    (free : loop.clients.head? = some none) :
    Invariant ({ loop with opened := insert connfd loop.opened }.addClient connfd) := by
  obtain ⟨rest, slots⟩ : ∃ rest, loop.clients = none :: rest := List.head?_eq_some_iff.mp free
  have before : fds loop = none :: rest.map (Option.map Client.fd) := by simp [fds, slots]
  have after : fds ({ loop with opened := insert connfd loop.opened }.addClient connfd) = (fds loop).set 0 (some connfd) := by
    simp [fds, slots, Loop.addClient, Loop.storeClient, Client.new]
  have uses := uses_set (by simp [before]) after
  have closed : ∀ fd ∈ loop.allset, fd ≠ connfd := fun fd member same => fresh (same ▸ invariant.owned fd member)
  have unused : ∀ slot, ¬ Uses loop slot connfd := fun slot taken =>
    closed connfd ((invariant.registered connfd).mpr (.inr (.inr ⟨slot, taken⟩))) rfl
  have empty : ∀ fd, ¬ Uses loop 0 fd := by simp [Uses, before]
  refine ⟨fun fd => ⟨fun member => ?_, fun used => ?_⟩, ?_, fun slot fd held => ?_, fun slot other fd left right => ?_,
    fun slot fd held => ?_, fun fd member => ?_⟩
  · rcases Finset.mem_insert.mp member with rfl | old
    · exact .inr (.inr ⟨0, (uses 0 _).mpr (.inl ⟨rfl, rfl⟩)⟩)
    · refine ((invariant.registered fd).mp old).imp_right (Or.imp_right fun ⟨slot, was⟩ => ⟨slot, ?_⟩)
      exact (uses slot fd).mpr (.inr ⟨fun first => empty fd (first ▸ was), was⟩)
  · rcases used with listening | piped | ⟨slot, held⟩
    · exact Finset.mem_insert_of_mem ((invariant.registered fd).mpr (.inl listening))
    · exact Finset.mem_insert_of_mem ((invariant.registered fd).mpr (.inr (.inl piped)))
    · rcases (uses slot fd).mp held with ⟨_, same⟩ | ⟨_, was⟩
      · cases same
        exact Finset.mem_insert_self ..
      · exact Finset.mem_insert_of_mem ((invariant.registered fd).mpr (.inr (.inr ⟨slot, was⟩)))
  · have count := invariant.counted
    have total : ({ loop with opened := insert connfd loop.opened }.addClient connfd).totalConnections =
      loop.totalConnections + 1 := rfl
    rw [total, after, count, before]
    simp
  · rcases (uses slot fd).mp held with ⟨rfl, _⟩ | ⟨_, was⟩
    · exact Nat.zero_le _
    · have bound := invariant.visited slot fd was
      simp only [Loop.addClient, slots, Loop.storeClient]
      split <;> omega
  · rcases (uses slot fd).mp left with ⟨rfl, same⟩ | ⟨_, was⟩ <;>
      rcases (uses other fd).mp right with ⟨rfl, equal⟩ | ⟨_, too⟩
    · rfl
    · cases same
      exact absurd too (unused other)
    · cases equal
      exact absurd was (unused slot)
    · exact invariant.distinct slot other fd was too
  · rcases (uses slot fd).mp held with ⟨_, same⟩ | ⟨_, was⟩
    · cases same
      exact ⟨fun same => closed _ ((invariant.registered _).mpr (.inl rfl)) same.symm,
        fun same => closed _ ((invariant.registered _).mpr (.inr (.inl rfl))) same.symm⟩
    · exact invariant.apart slot fd was
  · rcases Finset.mem_insert.mp member with rfl | old
    · exact Finset.mem_insert_self ..
    · exact Finset.mem_insert_of_mem (invariant.owned fd old)

private theorem Invariant.drop (invariant : Invariant loop) (held : Holds loop i cli) :
    Invariant (loop.dropClient i cli) := by
  have own : Uses loop i cli.fd := uses_iff.mpr ⟨cli, held, rfl⟩
  have inside : i < (fds loop).length := (List.getElem?_eq_some_iff.mp own).1
  have after : fds (loop.dropClient i cli) = (fds loop).set i none := by simp [fds, Loop.dropClient, Loop.closeFd]
  have uses : ∀ slot fd, Uses (loop.dropClient i cli) slot fd ↔ slot ≠ i ∧ Uses loop slot fd := by
    simpa using uses_set inside after
  refine ⟨fun fd => ⟨fun member => ?_, fun used => ?_⟩, ?_, fun slot fd held => ?_, fun slot other fd left right => ?_,
    fun slot fd held => ?_, fun fd member => ?_⟩
  · obtain ⟨other, old⟩ := Finset.mem_erase.mp member
    refine ((invariant.registered fd).mp old).imp_right (Or.imp_right fun ⟨slot, was⟩ => ⟨slot, ?_⟩)
    refine (uses slot fd).mpr ⟨fun same => other ?_, was⟩
    subst same
    simpa using was.symm.trans own
  · have different : fd ≠ cli.fd := by
      rcases used with rfl | rfl | ⟨slot, held⟩
      · exact (invariant.apart i _ own).1.symm
      · exact (invariant.apart i _ own).2.symm
      · obtain ⟨elsewhere, was⟩ := (uses slot fd).mp held
        exact fun same => elsewhere (invariant.distinct slot i fd was (same ▸ own))
    have old : fd ∈ loop.allset := (invariant.registered fd).mpr
      (used.imp_right (Or.imp_right fun ⟨slot, held⟩ => ⟨slot, ((uses slot fd).mp held).2⟩))
    exact Finset.mem_erase.mpr ⟨different, old⟩
  · have count := invariant.counted
    have total : (loop.dropClient i cli).totalConnections = loop.totalConnections - 1 := rfl
    have filled : (fds loop)[i] = some cli.fd := (List.getElem?_eq_some_iff.mp own).2
    have positive : 0 < (fds loop).countP Option.isSome :=
      List.countP_pos_iff.mpr ⟨some cli.fd, filled ▸ List.getElem_mem inside, rfl⟩
    rw [total, after, count, List.countP_set inside, filled]
    simp only [Option.isSome_some, Option.isSome_none, Bool.false_eq_true, if_true, if_false]
    omega
  · exact invariant.visited slot fd ((uses slot fd).mp held).2
  · exact invariant.distinct slot other fd ((uses slot fd).mp left).2 ((uses other fd).mp right).2
  · exact invariant.apart slot fd ((uses slot fd).mp held).2
  · obtain ⟨other, old⟩ := Finset.mem_erase.mp member
    have opened := invariant.owned fd old
    simp only [Loop.dropClient, Loop.closeFd]
    split
    · exact Finset.mem_erase.mpr ⟨other, opened⟩
    · exact opened

theorem fds_set {next : Client} (held : Holds loop i cli) (same : next.fd = cli.fd) :
    fds (loop.setClient i next) = fds loop := by
  have inside := (List.getElem?_eq_some_iff.mp held).1
  have stored : loop.clients[i] = some cli := (List.getElem?_eq_some_iff.mp held).2
  apply List.ext_getElem?
  intro slot
  by_cases here : i = slot
  · subst here
    simp [fds, Loop.setClient, inside, stored, same]
  · simp [fds, Loop.setClient, List.getElem?_set_ne here]

private theorem Invariant.serve (invariant : Invariant loop) (held : Holds loop i cli)
    (service : Service) : Invariant (loop.serveClient i cli service).1 := by
  have recorded : Invariant (loop.record cli.connection (cli.serve service)) :=
    invariant.keep rfl rfl rfl rfl rfl rfl (Finset.Subset.refl _)
  have same : ∀ next, kept (cli.serve service).pass = some next →
      Invariant ((loop.record cli.connection (cli.serve service)).setClient i next) := fun next stays =>
    recorded.keep (fds_set held (serve_same stays).fd) rfl rfl rfl rfl rfl (Finset.Subset.refl _)
  simp only [Loop.serveClient]
  split
  next next stays => exact same next (by rw [stays, kept])
  next next stays => exact same next (by rw [stays, kept])
  next => exact recorded.drop held

private theorem Invariant.accept (invariant : Invariant loop) (possible : loop.Possible turn)
    (first : FirstFree loop turn) : Invariant (loop.acceptClient turn.accept).1 := by
  obtain ⟨_, _, fresh⟩ := possible
  cases answer : turn.accept with
  | failed => exact invariant
  | noClient connfd => exact invariant.keep rfl rfl rfl rfl rfl rfl (Finset.subset_insert ..)
  | unprepared connfd =>
    rw [answer] at fresh
    refine invariant.keep rfl rfl rfl rfl rfl rfl ?_
    simp only [Loop.acceptClient, Loop.closeFd]
    split
    · rw [Finset.erase_insert fresh.2]
    · exact Finset.subset_insert ..
  | connected connfd =>
    rw [answer] at fresh
    exact invariant.add fresh.2 (first connfd answer)

theorem step_invariant (invariant : Invariant before) (first : FirstFree before turn)
    (step : Loop.Step before turn after) : Invariant after := by
  obtain ⟨possible, rfl⟩ := step
  exact turn_preserves invariant (invariant.keep rfl rfl rfl rfl rfl rfl (Finset.Subset.refl _))
    (invariant.accept possible first) fun _ _ _ service invariant held => invariant.serve held service

theorem run_turns {turns : List Turn} (possible : Along Loop.Possible Loop.turn loop turns) :
    Run Loop.Step free loop turns (turns.foldl Loop.turn loop) := .along (fun _ _ possible => ⟨trivial, possible, rfl⟩) possible

def connecting (connfd : Int) : Turn where
  select := .ready {3} 1
  pipe := []
  accept := .connected connfd
  serve := fun _ => ⟨.again, true, .again, ⟨false, false, false, 0, 0⟩, []⟩

end BtServer.Proofs.ControlSlots
