import LuaAttic.Support.Run
import Mathlib.Logic.Function.Basic
import Mathlib.Data.List.Nodup

/-!
# The socket loop (`socketloop.lua`)

Threads are coroutines.  One that has to wait for a socket registers itself in
the map `read` or `write` under the socket and yields; `dispatch` asks `select`
which of the sockets are ready and resumes their threads one after the other.
What the threads do between two calls of the loop is not modelled: any thread
may make any call at any time it runs, on any socket that it holds.
-/

namespace LuaAttic.Socketloop

open LuaAttic.Support Function

/-- The two maps of waiting threads. -/
inductive Dir
  | read
  | write
  deriving DecidableEq, Repr

inductive ThreadStatus (Skt : Type*)
  | unborn
  | running
  /-- suspended inside `wait(rwt, skt)` -/
  | waiting (rwt : Dir) (skt : Skt)
  | dead
  deriving DecidableEq

inductive SocketStatus
  | unmade
  | opened
  | closed
  deriving DecidableEq, Repr

variable {Thread Skt : Type*}

/-- The state of a loop and of the program around it. -/
structure State (Thread Skt : Type*) where
  /-- the maps `read` and `write` -/
  rwt : Dir → Skt → Option Thread
  threads : Thread → ThreadStatus Skt
  sockets : Skt → SocketStatus
  /-- who can still use a socket; `none` is the main thread -/
  holds : Option Thread → Skt → Bool
  /-- the threads that have been resumed and have not yielded yet, the running
  one first; when there is none the main thread runs -/
  stack : List Thread
  /-- the locals `skt` and `thread` of `wake`, while it resumes the thread -/
  waking : Option (Skt × Thread)
  /-- the sockets that `dispatch` has still to wake, while it runs -/
  pending : Option (List (Dir × Skt))

/-- What happens next.  `accept` and `receive` wait for the socket to be
readable and `send` for it to be writable; the socket that `accept` returns once
its thread is resumed is one made by `tcp`. -/
inductive Action (Thread Skt : Type*)
  | newthread (thread : Thread) (args : List Skt)
  | give (holder : Option Thread) (skt : Skt)
  | drop (skt : Skt)
  | tcp (skt : Skt)
  | accept (skt : Skt)
  | receive (skt : Skt)
  | send (skt : Skt)
  | connect (skt : Skt) (timeout : Bool)
  | close (skt : Skt)
  | finish
  | raise
  | dispatch (reads writes : List Skt)
  | wake

/-- No thread, no socket: what a new loop is made in. -/
def State.init : State Thread Skt where
  rwt _ _ := none
  threads _ := .unborn
  sockets _ := .unmade
  holds _ _ := false
  stack := []
  waking := none
  pending := none

namespace State

/-! ## The parts of a step -/

/-- Who runs. -/
def running (s : State Thread Skt) : Option Thread := s.stack.head?

section Sockets

variable [DecidableEq Skt]

/-- `rwt[skt] = thread`. -/
def setRwt (s : State Thread Skt) (rwt : Dir) (skt : Skt)
    (thread : Option Thread) : State Thread Skt :=
  { s with rwt := update s.rwt rwt (update (s.rwt rwt) skt thread) }

def setSocket (s : State Thread Skt) (skt : Skt) (status : SocketStatus) :
    State Thread Skt :=
  { s with sockets := update s.sockets skt status }

@[simp] theorem setSocket_sockets (s : State Thread Skt) (skt : Skt)
    (status : SocketStatus) :
    (s.setSocket skt status).sockets = update s.sockets skt status := rfl

/-- The socket is in one of the maps. -/
def Registered (s : State Thread Skt) (skt : Skt) : Prop :=
  s.rwt .read skt ≠ none ∨ s.rwt .write skt ≠ none

instance (s : State Thread Skt) (skt : Skt) : Decidable (s.Registered skt) :=
  inferInstanceAs (Decidable (_ ∨ _))

/-- The end of `wake`, which is reached when the thread that it resumed has
yielded or finished. -/
def endWake (s : State Thread Skt) (skt : Skt) : State Thread Skt :=
  if s.Registered skt then { s with waking := none }
  else { s.setSocket skt .closed with waking := none }

/-- The running thread leaves the stack and the one that resumed it goes on,
which is `wake` for the last one of those that `wake` has resumed. -/
def leave (s : State Thread Skt) : State Thread Skt :=
  match s.stack.tail, s.waking with
  | [], some (skt, _) => { s with stack := [] }.endWake skt
  | stack, _ => { s with stack := stack }

variable {s : State Thread Skt}

theorem setRwt_rwt {rwt rwt' : Dir} {skt skt' : Skt} {o : Option Thread} :
    (s.setRwt rwt skt o).rwt rwt' skt' =
      if rwt' = rwt ∧ skt' = skt then o else s.rwt rwt' skt' := by
  by_cases hrwt : rwt' = rwt
  · subst hrwt
    by_cases hskt : skt' = skt
    · subst hskt
      simp [setRwt]
    · simp [setRwt, hskt]
  · simp [setRwt, hrwt]

@[simp] theorem leave_rwt : s.leave.rwt = s.rwt := by
  unfold leave endWake
  split <;> try split
  all_goals rfl

@[simp] theorem leave_threads : s.leave.threads = s.threads := by
  unfold leave endWake
  split <;> try split
  all_goals rfl

@[simp] theorem leave_holds : s.leave.holds = s.holds := by
  unfold leave endWake
  split <;> try split
  all_goals rfl

@[simp] theorem leave_stack : s.leave.stack = s.stack.tail := by
  unfold leave endWake
  split
  · rename_i h _
    split <;> exact h.symm
  · rfl

theorem leave_waking :
    s.leave.waking = if s.stack.tail = [] then none else s.waking := by
  unfold leave endWake
  split
  · rename_i h _
    rw [if_pos h]
    split <;> rfl
  · rename_i h
    split_ifs with htail
    · cases hwaking : s.waking with
      | none => rfl
      | some w => exact absurd hwaking (h w.1 w.2 htail)
    · rfl

theorem endWake_closed_iff {skt skt' : Skt} :
    (s.endWake skt').sockets skt = .closed ↔
      s.sockets skt = .closed ∨ skt = skt' ∧ ¬ s.Registered skt := by
  unfold endWake
  split_ifs with hreg
  · refine ⟨Or.inl, Or.rec id ?_⟩
    rintro ⟨rfl, hnot⟩
    exact absurd hreg hnot
  · by_cases hskt : skt = skt'
    · subst hskt
      simp [setSocket, hreg]
    · simp [setSocket, hskt]

/-- A socket is closed when the thread that was resumed for it has left the
stack and nobody waits for it. -/
theorem leave_closed_iff {skt : Skt} :
    s.leave.sockets skt = .closed ↔
      s.sockets skt = .closed ∨
        s.stack.tail = [] ∧ (∃ thread, s.waking = some (skt, thread)) ∧
          ¬ s.Registered skt := by
  unfold leave
  split
  · rename_i skt' thread htail hwaking
    have hsame : (∃ thread', s.waking = some (skt, thread')) ↔ skt = skt' := by
      rw [hwaking]
      simp [eq_comm]
    rw [endWake_closed_iff, hsame]
    simp [htail, Registered]
  · rename_i h
    refine ⟨Or.inl, Or.rec id ?_⟩
    rintro ⟨htail, ⟨thread, hwaking⟩, -⟩
    exact absurd hwaking (h skt thread htail)

end Sockets

variable [DecidableEq Thread] [DecidableEq Skt]

def setStatus (s : State Thread Skt) (thread : Thread)
    (status : ThreadStatus Skt) : State Thread Skt :=
  { s with threads := update s.threads thread status }

def setHolds (s : State Thread Skt) (holder : Option Thread) (skt : Skt)
    (b : Bool) : State Thread Skt :=
  { s with holds := update s.holds holder (update (s.holds holder) skt b) }

omit [DecidableEq Skt] in
@[simp] theorem setStatus_threads (s : State Thread Skt) (thread : Thread)
    (status : ThreadStatus Skt) :
    (s.setStatus thread status).threads = update s.threads thread status := rfl

/-- `wait` of the running thread, up to the yield. -/
def wait (s : State Thread Skt) (rwt : Dir) (skt : Skt) : State Thread Skt :=
  match s.running with
  | some thread =>
      ((s.setRwt rwt skt (some thread)).setStatus thread
        (.waiting rwt skt)).leave
  | none => s

/-- A new socket in the hands of the running thread. -/
def newSocket (s : State Thread Skt) (skt : Skt) : State Thread Skt :=
  (s.setSocket skt .opened).setHolds s.running skt true

/-- The running thread ends. -/
def finish (s : State Thread Skt) : State Thread Skt :=
  match s.running with
  | some thread => (s.setStatus thread .dead).leave
  | none => s

/-- The running thread raises an error, which `assert_resume` raises again in
the thread that resumed it.  If that is the main thread, `wake` and `dispatch`
are left at once. -/
def raise (s : State Thread Skt) : State Thread Skt :=
  match s.running with
  | some thread =>
      let s := s.setStatus thread .dead
      if s.stack.tail = [] then
        { s with stack := [], waking := none, pending := none }
      else { s with stack := s.stack.tail }
  | none => s

/-- `coroutine.resume` of a thread inside `wait`, and the rest of `wait`. -/
def resume (s : State Thread Skt) (thread : Thread) (rwt : Dir) (skt : Skt) :
    State Thread Skt :=
  { (s.setRwt rwt skt none).setStatus thread .running with
    stack := thread :: s.stack }

/-- The next call of `wake`, or the end of `dispatch`. -/
def wakeNext (s : State Thread Skt) : State Thread Skt :=
  match s.pending with
  | some ((rwt, skt) :: pending) =>
      match s.rwt rwt skt with
      | some thread =>
          { s.resume thread rwt skt with
            waking := some (skt, thread), pending := some pending }
      | none => { s with pending := some pending }
  | _ => { s with pending := none }

end State

variable [DecidableEq Thread] [DecidableEq Skt]

/-! ## Steps -/

/-- The main thread is inside `dispatch`. -/
def State.Dispatching (s : State Thread Skt) : Prop :=
  s.stack = [] ∧ s.pending ≠ none

/-- What can happen in a state.  A socket that is made is a new one, a call of a
thread is about a socket that it holds, only a coroutine can wait, and `select`
reports sockets that it has been given and that are not closed. -/
def Enabled (s : State Thread Skt) : Action Thread Skt → Prop
  | .newthread thread args =>
      ¬ s.Dispatching ∧ s.threads thread = .unborn ∧
        ∀ skt ∈ args, s.holds s.running skt
  | .give _ skt => ¬ s.Dispatching ∧ s.holds s.running skt
  | .drop _ => ¬ s.Dispatching
  | .tcp skt => ¬ s.Dispatching ∧ s.sockets skt = .unmade
  | .accept skt => s.stack ≠ [] ∧ s.holds s.running skt
  | .receive skt => s.stack ≠ [] ∧ s.holds s.running skt
  | .send skt => s.stack ≠ [] ∧ s.holds s.running skt
  | .connect skt timeout =>
      ¬ s.Dispatching ∧ s.sockets skt = .unmade ∧ (timeout → s.stack ≠ [])
  | .close skt => ¬ s.Dispatching ∧ s.holds s.running skt
  | .finish => s.stack ≠ []
  | .raise => s.stack ≠ []
  | .dispatch reads writes =>
      s.stack = [] ∧ s.pending = none ∧
        (∀ skt ∈ reads, s.rwt .read skt ≠ none ∧ s.sockets skt = .opened) ∧
        (∀ skt ∈ writes, s.rwt .write skt ≠ none ∧ s.sockets skt = .opened) ∧
        reads.Nodup ∧ writes.Nodup
  | .wake => s.Dispatching

instance (s : State Thread Skt) : Decidable s.Dispatching :=
  inferInstanceAs (Decidable (_ ∧ _))

instance Enabled.decidable (s : State Thread Skt) :
    ∀ a : Action Thread Skt, Decidable (Enabled s a)
  | .newthread _ _ => inferInstanceAs (Decidable (_ ∧ _ ∧ _))
  | .give _ _ => inferInstanceAs (Decidable (_ ∧ _))
  | .drop _ => inferInstanceAs (Decidable (¬ _))
  | .tcp _ => inferInstanceAs (Decidable (_ ∧ _))
  | .accept _ => inferInstanceAs (Decidable (_ ∧ _))
  | .receive _ => inferInstanceAs (Decidable (_ ∧ _))
  | .send _ => inferInstanceAs (Decidable (_ ∧ _))
  | .connect _ _ => inferInstanceAs (Decidable (_ ∧ _ ∧ _))
  | .close _ => inferInstanceAs (Decidable (_ ∧ _))
  | .finish => inferInstanceAs (Decidable (_ ≠ _))
  | .raise => inferInstanceAs (Decidable (_ ≠ _))
  | .dispatch _ _ => inferInstanceAs (Decidable (_ ∧ _ ∧ _ ∧ _ ∧ _ ∧ _))
  | .wake => inferInstanceAs (Decidable (State.Dispatching s))

/-- What an action does. -/
def perform (s : State Thread Skt) : Action Thread Skt → State Thread Skt
  | .newthread thread args =>
      { s with
        threads := update s.threads thread .running
        holds := update s.holds (some thread) (fun skt => decide (skt ∈ args))
        stack := thread :: s.stack }
  | .give holder skt => s.setHolds holder skt true
  | .drop skt => s.setHolds s.running skt false
  | .tcp skt => s.newSocket skt
  | .accept skt => s.wait .read skt
  | .receive skt => s.wait .read skt
  | .send skt => s.wait .write skt
  | .connect skt timeout =>
      if timeout then (s.newSocket skt).wait .write skt else s.newSocket skt
  | .close skt =>
      ((s.setRwt .write skt none).setRwt .read skt none).setSocket skt .closed
  | .finish => s.finish
  | .raise => s.raise
  | .dispatch reads writes =>
      { s with pending := some (reads.map (.read, ·) ++ writes.map (.write, ·)) }
  | .wake => s.wakeNext

/-- One step: what is not possible changes nothing. -/
def step (s : State Thread Skt) (a : Action Thread Skt) : State Thread Skt :=
  if Enabled s a then perform s a else s

theorem step_of_enabled {s : State Thread Skt} {a : Action Thread Skt}
    (h : Enabled s a) : step s a = perform s a := if_pos h

theorem step_of_not_enabled {s : State Thread Skt} {a : Action Thread Skt}
    (h : ¬ Enabled s a) : step s a = s := if_neg h

/-! ## The invariant -/

/-- What holds in every state of a loop. -/
structure Inv (s : State Thread Skt) : Prop where
  /-- a registered thread waits for just that -/
  waiting : ∀ rwt skt thread, s.rwt rwt skt = some thread →
    s.threads thread = .waiting rwt skt
  running : ∀ thread ∈ s.stack, s.threads thread = .running
  nodup : s.stack.Nodup
  /-- the thread that `wake` has resumed is the first of those it waits for -/
  waking : ∀ skt thread, s.waking = some (skt, thread) →
    s.stack.getLast? = some thread

omit [DecidableEq Thread] [DecidableEq Skt] in
theorem inv_init : Inv (.init : State Thread Skt) where
  waiting _ _ _ h := by cases h
  running _ h := by cases h
  nodup := List.nodup_nil
  waking _ _ h := by cases h

namespace Inv

variable {s s' : State Thread Skt}

omit [DecidableEq Thread] [DecidableEq Skt] in
/-- Sockets and who holds them are not what the invariant is about. -/
theorem congr (h : Inv s) (hrwt : s'.rwt = s.rwt)
    (hthreads : s'.threads = s.threads) (hstack : s'.stack = s.stack)
    (hwaking : s'.waking = s.waking) : Inv s' where
  waiting := hrwt ▸ hthreads ▸ h.waiting
  running := hstack ▸ hthreads ▸ h.running
  nodup := hstack ▸ h.nodup
  waking := hwaking ▸ hstack ▸ h.waking

omit [DecidableEq Thread] [DecidableEq Skt] in
/-- The running thread is not registered. -/
theorem ne_of_registered (h : Inv s) {rwt : Dir} {skt : Skt}
    {thread thread' : Thread} (hreg : s.rwt rwt skt = some thread)
    (hrun : thread' ∈ s.stack) : thread ≠ thread' := by
  rintro rfl
  have hwaiting := h.waiting rwt skt thread hreg
  rw [h.running thread hrun] at hwaiting
  cases hwaiting

omit [DecidableEq Thread] in
/-- The running thread leaves the stack in another status. -/
theorem leave {thread : Thread} {stack : List Thread}
    (hstack : s.stack = thread :: stack)
    (hwaiting : ∀ rwt skt t, s.rwt rwt skt = some t →
      s.threads t = .waiting rwt skt)
    (hrunning : ∀ t ∈ stack, s.threads t = .running) (hnodup : stack.Nodup)
    (hwaking : ∀ skt t, s.waking = some (skt, t) →
      s.stack.getLast? = some t) : Inv s.leave where
  waiting := by simpa using hwaiting
  running := by simpa [hstack] using hrunning
  nodup := by simpa [hstack] using hnodup
  waking := by
    intro skt t ht
    rw [State.leave_waking] at ht
    rw [State.leave_stack]
    split_ifs at ht with htail
    rw [hstack, List.tail_cons] at htail ⊢
    have hlast := hwaking skt t ht
    rwa [hstack, List.getLast?_cons_of_ne_nil htail] at hlast

omit [DecidableEq Skt] in
/-- What the others are registered for and run for does not change when the
running thread takes another status. -/
theorem others (h : Inv s) {thread : Thread} {stack : List Thread}
    (hstack : s.stack = thread :: stack) (status : ThreadStatus Skt) :
    (∀ rwt skt t, s.rwt rwt skt = some t →
      (s.setStatus thread status).threads t = .waiting rwt skt) ∧
    ∀ t ∈ stack, (s.setStatus thread status).threads t = .running := by
  have hmem : thread ∈ s.stack := hstack ▸ List.mem_cons_self
  have hnodup := h.nodup
  rw [hstack, List.nodup_cons] at hnodup
  constructor
  · intro rwt skt t ht
    have hne : t ≠ thread := h.ne_of_registered ht hmem
    exact (update_of_ne hne _ _).trans (h.waiting rwt skt t ht)
  · intro t ht
    have hne : t ≠ thread := fun heq => hnodup.1 (heq ▸ ht)
    have hrun : t ∈ s.stack := hstack ▸ List.mem_cons_of_mem thread ht
    exact (update_of_ne hne _ _).trans (h.running t hrun)

theorem wait (h : Inv s) (rwt : Dir) (skt : Skt) : Inv (s.wait rwt skt) := by
  cases hstack : s.stack with
  | nil => simpa [State.wait, State.running, hstack] using h
  | cons thread stack =>
      have hnodup := h.nodup
      rw [hstack, List.nodup_cons] at hnodup
      have hothers := h.others hstack (.waiting rwt skt)
      have hwait : s.wait rwt skt =
          ((s.setRwt rwt skt (some thread)).setStatus thread
            (.waiting rwt skt)).leave := by
        simp [State.wait, State.running, hstack]
      rw [hwait]
      refine Inv.leave (show _ = thread :: stack from hstack) ?_ hothers.2
        hnodup.2 h.waking
      intro rwt' skt' t ht
      rw [show ((s.setRwt rwt skt (some thread)).setStatus thread
        (.waiting rwt skt)).rwt rwt' skt' = _ from State.setRwt_rwt] at ht
      split_ifs at ht with hslot
      · rw [hslot.1, hslot.2, ← Option.some.inj ht]
        exact update_self _ _ _
      · exact hothers.1 rwt' skt' t ht

theorem finish (h : Inv s) : Inv s.finish := by
  cases hstack : s.stack with
  | nil => simpa [State.finish, State.running, hstack] using h
  | cons thread stack =>
      have hnodup := h.nodup
      rw [hstack, List.nodup_cons] at hnodup
      have hothers := h.others hstack .dead
      have hfinish : s.finish = (s.setStatus thread .dead).leave := by
        simp [State.finish, State.running, hstack]
      rw [hfinish]
      exact leave hstack hothers.1 hothers.2 hnodup.2 h.waking

omit [DecidableEq Skt] in
theorem raise (h : Inv s) : Inv s.raise := by
  cases hstack : s.stack with
  | nil => simpa [State.raise, State.running, hstack] using h
  | cons thread stack =>
      have hnodup := h.nodup
      rw [hstack, List.nodup_cons] at hnodup
      have hothers := h.others hstack .dead
      by_cases htail : stack = []
      · have hraise : s.raise = { s.setStatus thread .dead with
            stack := [], waking := none, pending := none } := by
          simp [State.raise, State.running, hstack, htail, State.setStatus]
        rw [hraise]
        exact ⟨hothers.1, fun _ ht => (List.not_mem_nil ht).elim,
          List.nodup_nil, fun _ _ ht => nomatch ht⟩
      · have hraise : s.raise =
            { s.setStatus thread .dead with stack := stack } := by
          simp [State.raise, State.running, hstack, htail, State.setStatus]
        rw [hraise]
        refine ⟨hothers.1, hothers.2, hnodup.2, fun skt t ht => ?_⟩
        have hlast := h.waking skt t ht
        rwa [hstack, List.getLast?_cons_of_ne_nil htail] at hlast

omit [DecidableEq Thread] in
/-- Registrations are taken away. -/
theorem unregister (h : Inv s) (rwt : Dir) (skt : Skt) :
    Inv (s.setRwt rwt skt none) where
  waiting := by
    intro rwt' skt' t ht
    rw [State.setRwt_rwt] at ht
    split_ifs at ht
    exact h.waiting rwt' skt' t ht
  running := h.running
  nodup := h.nodup
  waking := h.waking

theorem resume (h : Inv s) {thread : Thread} {rwt : Dir} {skt : Skt}
    (hstack : s.stack = []) (hreg : s.rwt rwt skt = some thread)
    (pending : Option (List (Dir × Skt))) :
    Inv { s.resume thread rwt skt with
      waking := some (skt, thread), pending := pending } where
  waiting := by
    intro rwt' skt' t ht
    rw [show ({ s.resume thread rwt skt with
      waking := some (skt, thread), pending := pending } :
        State Thread Skt).rwt rwt' skt' = _ from State.setRwt_rwt] at ht
    split_ifs at ht with hslot
    have hwaiting := h.waiting rwt' skt' t ht
    have hne : t ≠ thread := by
      rintro rfl
      rw [h.waiting rwt skt t hreg] at hwaiting
      cases hwaiting
      exact hslot ⟨rfl, rfl⟩
    exact (update_of_ne hne _ _).trans hwaiting
  running := by
    intro t ht
    rw [show ({ s.resume thread rwt skt with
      waking := some (skt, thread), pending := pending } :
        State Thread Skt).stack = [thread] from congrArg _ hstack,
      List.mem_singleton] at ht
    subst ht
    exact update_self _ _ _
  nodup := by
    rw [show ({ s.resume thread rwt skt with
      waking := some (skt, thread), pending := pending } :
        State Thread Skt).stack = [thread] from congrArg _ hstack]
    exact List.nodup_singleton thread
  waking := by
    rintro _ _ ⟨⟩
    exact congrArg List.getLast? (congrArg (thread :: ·) hstack)

theorem wakeNext (h : Inv s) (hstack : s.stack = []) : Inv s.wakeNext := by
  unfold State.wakeNext
  split
  · split
    · exact h.resume hstack ‹_› _
    · exact h.congr rfl rfl rfl rfl
  · exact h.congr rfl rfl rfl rfl

theorem newthread (h : Inv s) {thread : Thread}
    (hthread : s.threads thread = .unborn) (args : List Skt) :
    Inv (perform s (.newthread thread args)) where
  waiting := by
    intro rwt skt t ht
    have hwaiting := h.waiting rwt skt t ht
    have hne : t ≠ thread := by
      rintro rfl
      rw [hthread] at hwaiting
      cases hwaiting
    exact (update_of_ne hne _ _).trans hwaiting
  running := by
    intro t ht
    by_cases heq : t = thread
    · subst heq
      exact update_self _ _ _
    · have hmem : t ∈ s.stack := List.mem_of_ne_of_mem heq ht
      exact (update_of_ne heq _ _).trans (h.running t hmem)
  nodup := by
    refine List.nodup_cons.mpr ⟨fun hmem => ?_, h.nodup⟩
    rw [h.running thread hmem] at hthread
    cases hthread
  waking := by
    intro skt t ht
    have hlast : s.stack.getLast? = some t := h.waking skt t ht
    have hne : s.stack ≠ [] := by
      rintro hnil
      rw [hnil] at hlast
      cases hlast
    exact (List.getLast?_cons_of_ne_nil hne).trans hlast

end Inv

/-- Every step keeps the invariant. -/
theorem inv_step {s : State Thread Skt} (h : Inv s)
    (a : Action Thread Skt) : Inv (step s a) := by
  by_cases ha : Enabled s a
  · rw [step_of_enabled ha]
    cases a with
    | newthread thread args => exact h.newthread ha.2.1 args
    | give holder skt => exact h.congr rfl rfl rfl rfl
    | drop skt => exact h.congr rfl rfl rfl rfl
    | tcp skt => exact h.congr rfl rfl rfl rfl
    | accept skt => exact h.wait .read skt
    | receive skt => exact h.wait .read skt
    | send skt => exact h.wait .write skt
    | connect skt timeout =>
        have hnew : Inv (s.newSocket skt) := h.congr rfl rfl rfl rfl
        cases timeout with
        | false => exact hnew
        | true => exact hnew.wait .write skt
    | close skt =>
        have hclose := (h.unregister .write skt).unregister .read skt
        exact hclose.congr rfl rfl rfl rfl
    | finish => exact h.finish
    | raise => exact h.raise
    | dispatch reads writes => exact h.congr rfl rfl rfl rfl
    | wake => exact h.wakeNext ha.1
  · rw [step_of_not_enabled ha]
    exact h

end LuaAttic.Socketloop
