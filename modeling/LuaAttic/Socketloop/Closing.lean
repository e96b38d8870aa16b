import Mathlib
import LuaAttic.Socketloop.Loop

/-!
# The sockets that the loop closes

`wake` closes a socket that nobody waits for when the thread that it has resumed
for it is back, and takes that for the end of the thread.  But a thread is also
back when it has come to wait for another socket.  Which steps close a socket
that is in use is decided by the state before them.
-/

namespace LuaAttic.Socketloop

open LuaAttic.Support Function

variable {Thread Skt : Type*} [DecidableEq Thread] [DecidableEq Skt]

/-! ## What the steps close -/

/-- The step closes the socket, and not because a thread has asked for it. -/
def ClosedByLoop (s : State Thread Skt) (a : Action Thread Skt) (skt : Skt) :
    Prop :=
  s.sockets skt = .opened ∧ (step s a).sockets skt = .closed ∧ a ≠ .close skt

/-- A thread that has begun and not ended. -/
def State.Live (s : State Thread Skt) (thread : Thread) : Prop :=
  s.threads thread ≠ .unborn ∧ s.threads thread ≠ .dead

/-- The loop closes a socket in this step only if the thread that was resumed
for it has finished by then and no live thread holds it. -/
def ClosesSafely (s : State Thread Skt) (a : Action Thread Skt) : Prop :=
  ∀ skt, ClosedByLoop s a skt →
    (∃ thread, s.waking = some (skt, thread) ∧
      (step s a).threads thread = .dead) ∧
    ∀ thread, (step s a).Live thread → ¬ (step s a).holds (some thread) skt

/-- The thread that was resumed for the socket runs, with no other thread that
it has resumed; nobody waits for the socket, which is open. -/
def State.LastUser (s : State Thread Skt) (skt : Skt) (thread : Thread) : Prop :=
  s.waking = some (skt, thread) ∧ s.stack = [thread] ∧
    s.sockets skt = .opened ∧ ¬ s.Registered skt

/-- The use of sockets for which the loop is made: a thread that was resumed for
a socket next waits for the same socket, and ends when no other live thread
holds it; unless somebody waits for the socket or it has been closed. -/
def UsesOneSocket (s : State Thread Skt) (a : Action Thread Skt) : Prop :=
  Enabled s a → ∀ skt thread, s.LastUser skt thread →
    match a with
    | .accept skt' | .receive skt' | .send skt' => skt' = skt
    | .connect _ timeout => ¬ timeout
    | .finish => ∀ thread', thread' ≠ thread → s.Live thread' →
        ¬ s.holds (some thread') skt
    | _ => True

/-! ## Waiting and finishing -/

namespace State

variable {s : State Thread Skt} {skt skt' : Skt} {thread : Thread}

omit [DecidableEq Thread] in
theorem setRwt_registered_iff {rwt : Dir} :
    (s.setRwt rwt skt' (some thread)).Registered skt ↔
      skt = skt' ∨ s.Registered skt := by
  simp only [Registered, setRwt_rwt]
  by_cases hskt : skt = skt'
  · cases rwt <;> simp [hskt]
  · simp [hskt]

theorem wait_eq {stack : List Thread} (hstack : s.stack = thread :: stack)
    (rwt : Dir) (skt : Skt) :
    s.wait rwt skt =
      ((s.setRwt rwt skt (some thread)).setStatus thread
        (.waiting rwt skt)).leave := by
  simp [wait, running, hstack]

theorem finish_eq {stack : List Thread} (hstack : s.stack = thread :: stack) :
    s.finish = (s.setStatus thread .dead).leave := by
  simp [finish, running, hstack]

theorem wait_closed_iff {stack : List Thread}
    (hstack : s.stack = thread :: stack) (rwt : Dir) :
    (s.wait rwt skt').sockets skt = .closed ↔
      s.sockets skt = .closed ∨
        stack = [] ∧ (∃ t, s.waking = some (skt, t)) ∧
          ¬ (skt = skt' ∨ s.Registered skt) := by
  rw [wait_eq hstack, leave_closed_iff,
    show ((s.setRwt rwt skt' (some thread)).setStatus thread
      (.waiting rwt skt')).Registered skt ↔ _ from setRwt_registered_iff]
  simp [setStatus, setRwt, hstack]

theorem finish_closed_iff {stack : List Thread}
    (hstack : s.stack = thread :: stack) :
    s.finish.sockets skt = .closed ↔
      s.sockets skt = .closed ∨
        stack = [] ∧ (∃ t, s.waking = some (skt, t)) ∧ ¬ s.Registered skt := by
  rw [finish_eq hstack, leave_closed_iff]
  simp [setStatus, Registered, hstack]

end State

/-! ## Single steps -/

section Step

variable {s : State Thread Skt} {a : Action Thread Skt} {skt : Skt}

omit [DecidableEq Thread] [DecidableEq Skt] in
/-- The last thread on the stack is the one that `wake` has resumed. -/
theorem Inv.lastUser (h : Inv s) {thread t : Thread}
    (hstack : s.stack = [thread]) (hwaking : s.waking = some (skt, t))
    (hopen : s.sockets skt = .opened) (hreg : ¬ s.Registered skt) :
    s.LastUser skt thread := by
  have hlast := h.waking skt t hwaking
  rw [hstack, List.getLast?_singleton] at hlast
  rw [← Option.some.inj hlast] at hwaking
  exact ⟨hwaking, hstack, hopen, hreg⟩

/-- What is closed when the running thread waits. -/
theorem Inv.wait_closes_iff (h : Inv s) (hne : s.stack ≠ [])
    (hopen : s.sockets skt = .opened) (rwt : Dir) (skt' : Skt) :
    (s.wait rwt skt').sockets skt = .closed ↔
      (∃ thread, s.LastUser skt thread) ∧ skt' ≠ skt := by
  obtain ⟨thread, stack, hstack⟩ := List.exists_cons_of_ne_nil hne
  rw [State.wait_closed_iff hstack, hopen]
  constructor
  · rintro (hclosed | ⟨hnil, ⟨t, hwaking⟩, hnot⟩)
    · cases hclosed
    · rw [not_or] at hnot
      rw [hnil] at hstack
      exact ⟨⟨thread, h.lastUser hstack hwaking hopen hnot.2⟩, Ne.symm hnot.1⟩
  · rintro ⟨⟨t, hwaking, hstack', -, hreg⟩, hskt⟩
    rw [hstack', List.cons.injEq] at hstack
    exact Or.inr ⟨hstack.2.symm, ⟨t, hwaking⟩, not_or.mpr ⟨hskt.symm, hreg⟩⟩

/-- What is closed when the running thread ends. -/
theorem Inv.finish_closes_iff (h : Inv s) (hne : s.stack ≠ [])
    (hopen : s.sockets skt = .opened) :
    s.finish.sockets skt = .closed ↔ ∃ thread, s.LastUser skt thread := by
  obtain ⟨thread, stack, hstack⟩ := List.exists_cons_of_ne_nil hne
  rw [State.finish_closed_iff hstack, hopen]
  constructor
  · rintro (hclosed | ⟨hnil, ⟨t, hwaking⟩, hnot⟩)
    · cases hclosed
    · rw [hnil] at hstack
      exact ⟨thread, h.lastUser hstack hwaking hopen hnot⟩
  · rintro ⟨t, hwaking, hstack', -, hreg⟩
    rw [hstack', List.cons.injEq] at hstack
    exact Or.inr ⟨hstack.2.symm, ⟨t, hwaking⟩, hreg⟩

theorem newSocket_lastUser_iff {skt' : Skt} (hskt : s.sockets skt' = .unmade)
    (hopen : s.sockets skt = .opened) {thread : Thread} :
    (s.newSocket skt').LastUser skt thread ↔ s.LastUser skt thread := by
  have hne : skt ≠ skt' := by
    rintro rfl
    rw [hskt] at hopen
    cases hopen
  have hsame : (s.newSocket skt').sockets skt = s.sockets skt :=
    update_of_ne hne _ _
  unfold State.LastUser
  rw [hsame]
  rfl

/-- The running thread gives up the loop thread and does not wait for the
socket. -/
def Abandons (a : Action Thread Skt) (skt : Skt) : Prop :=
  match a with
  | .accept skt' | .receive skt' | .send skt' => skt' ≠ skt
  | .connect _ timeout => timeout
  | .finish => True
  | _ => False

/-- What is closed when the running thread waits to be connected. -/
theorem Inv.connect_closes_iff (h : Inv s) (hne : s.stack ≠ []) {skt' : Skt}
    (hskt : s.sockets skt' = .unmade) (hopen : s.sockets skt = .opened) :
    ((s.newSocket skt').wait .write skt').sockets skt = .closed ↔
      ∃ thread, s.LastUser skt thread := by
  have hnew : Inv (s.newSocket skt') := h.congr rfl rfl rfl rfl
  have hother : skt' ≠ skt := by
    rintro rfl
    rw [hskt] at hopen
    cases hopen
  have hsame : (s.newSocket skt').sockets skt = .opened :=
    (update_of_ne hother.symm _ _).trans hopen
  rw [hnew.wait_closes_iff hne hsame, and_iff_left hother]
  exact exists_congr fun _ => newSocket_lastUser_iff hskt hopen

omit [DecidableEq Skt] in
theorem raise_sockets : s.raise.sockets = s.sockets := by
  unfold State.raise
  split
  · dsimp only
    split_ifs <;> rfl
  · rfl

theorem wakeNext_sockets : s.wakeNext.sockets = s.sockets := by
  unfold State.wakeNext
  split
  · split <;> rfl
  · rfl

/-- The steps that are neither a wait nor an end of a thread close nothing but
what a thread asks them to close. -/
theorem closed_cases (ha : Enabled s a) (hopen : s.sockets skt = .opened)
    (hclosed : (perform s a).sockets skt = .closed) :
    a = .close skt ∨
      (∃ rwt skt', perform s a = s.wait rwt skt' ∧ (Abandons a skt ↔ skt' ≠ skt)) ∨
      (∃ skt', a = .connect skt' true) ∨ a = .finish := by
  have hkeep : ∀ {s' : State Thread Skt}, s'.sockets skt = .closed →
      s'.sockets skt ≠ s.sockets skt := by
    intro s' hs' hsame
    rw [hs', hopen] at hsame
    cases hsame
  cases a with
  | accept skt' => exact Or.inr (Or.inl ⟨.read, skt', rfl, Iff.rfl⟩)
  | receive skt' => exact Or.inr (Or.inl ⟨.read, skt', rfl, Iff.rfl⟩)
  | send skt' => exact Or.inr (Or.inl ⟨.write, skt', rfl, Iff.rfl⟩)
  | finish => exact Or.inr (Or.inr (Or.inr rfl))
  | connect skt' timeout =>
      cases timeout with
      | true => exact Or.inr (Or.inr (Or.inl ⟨skt', rfl⟩))
      | false =>
          refine absurd (update_of_ne ?_ _ _) (hkeep hclosed)
          rintro rfl
          rw [ha.2.1] at hopen
          cases hopen
  | close skt' =>
      by_cases hskt : skt = skt'
      · exact Or.inl (congrArg Action.close hskt.symm)
      · exact absurd (update_of_ne hskt _ _) (hkeep hclosed)
  | tcp skt' =>
      refine absurd (update_of_ne ?_ _ _) (hkeep hclosed)
      rintro rfl
      rw [ha.2] at hopen
      cases hopen
  | raise => exact absurd (congrFun raise_sockets skt) (hkeep hclosed)
  | wake => exact absurd (congrFun wakeNext_sockets skt) (hkeep hclosed)
  | newthread | give | drop | dispatch => exact absurd rfl (hkeep hclosed)

/-- Exactly what the loop closes. -/
theorem closedByLoop_iff (h : Inv s) :
    ClosedByLoop s a skt ↔
      Enabled s a ∧ (∃ thread, s.LastUser skt thread) ∧ Abandons a skt := by
  constructor
  · rintro ⟨hopen, hclosed, hne⟩
    by_cases ha : Enabled s a
    · rw [step_of_enabled ha] at hclosed
      refine ⟨ha, ?_⟩
      rcases closed_cases ha hopen hclosed with
        hclose | ⟨rwt, skt', hwait, hab⟩ | ⟨skt', rfl⟩ | rfl
      · exact absurd hclose hne
      · have hstack : s.stack ≠ [] := by
          intro hnil
          rw [hwait, State.wait, State.running, hnil] at hclosed
          exact absurd (hopen.symm.trans hclosed) (by decide)
        rw [hwait, h.wait_closes_iff hstack hopen] at hclosed
        exact ⟨hclosed.1, hab.mpr hclosed.2⟩
      · have hstack := ha.2.2 rfl
        exact ⟨(h.connect_closes_iff hstack ha.2.1 hopen).mp hclosed, rfl⟩
      · exact ⟨(h.finish_closes_iff ha hopen).mp hclosed, trivial⟩
    · rw [step_of_not_enabled ha, hopen] at hclosed
      cases hclosed
  · rintro ⟨ha, hlast, hab⟩
    have hopen : s.sockets skt = .opened := hlast.choose_spec.2.2.1
    rw [ClosedByLoop, step_of_enabled ha]
    refine ⟨hopen, ?_⟩
    cases a with
    | accept skt' =>
        exact ⟨(h.wait_closes_iff ha.1 hopen _ _).mpr ⟨hlast, hab⟩, by simp⟩
    | receive skt' =>
        exact ⟨(h.wait_closes_iff ha.1 hopen _ _).mpr ⟨hlast, hab⟩, by simp⟩
    | send skt' =>
        exact ⟨(h.wait_closes_iff ha.1 hopen _ _).mpr ⟨hlast, hab⟩, by simp⟩
    | connect skt' timeout =>
        cases timeout with
        | false => cases hab
        | true =>
            exact ⟨(h.connect_closes_iff (ha.2.2 rfl) ha.2.1 hopen).mpr hlast,
              by simp⟩
    | finish => exact ⟨(h.finish_closes_iff ha hopen).mpr hlast, by simp⟩
    | newthread | give | drop | tcp | close | raise | dispatch | wake =>
        exact hab.elim

/-- A thread that waits has not finished. -/
theorem wait_not_dead {thread : Thread} (hlast : s.LastUser skt thread)
    (rwt : Dir) (skt' : Skt) :
    (s.wait rwt skt').threads thread ≠ .dead := by
  rw [State.wait_eq hlast.2.1, State.leave_threads]
  exact fun h => nomatch (update_self thread _ s.threads).symm.trans h

/-- A thread that gives up the loop thread finishes or is left suspended. -/
theorem finish_of_dead (ha : Enabled s a) {thread : Thread}
    (hlast : s.LastUser skt thread) (hab : Abandons a skt)
    (hdead : (perform s a).threads thread = .dead) : a = .finish := by
  cases a with
  | accept skt' => exact absurd hdead (wait_not_dead hlast _ _)
  | receive skt' => exact absurd hdead (wait_not_dead hlast _ _)
  | send skt' => exact absurd hdead (wait_not_dead hlast _ _)
  | connect skt' timeout =>
      cases timeout with
      | false => cases hab
      | true =>
          have hnew := (newSocket_lastUser_iff ha.2.1 hlast.2.2.1).mpr hlast
          exact absurd hdead (wait_not_dead hnew _ _)
  | finish => rfl
  | newthread | give | drop | tcp | close | raise | dispatch | wake =>
      exact hab.elim

/-- What there is after the only running thread has ended. -/
theorem finish_threads {thread : Thread} (hlast : s.LastUser skt thread) :
    s.finish.threads = update s.threads thread .dead ∧
      s.finish.holds = s.holds := by
  rw [State.finish_eq hlast.2.1, State.leave_threads, State.leave_holds]
  exact ⟨rfl, rfl⟩

/-- The others live on. -/
theorem finish_live_iff {thread thread' : Thread}
    (hlast : s.LastUser skt thread) :
    s.finish.Live thread' ↔ thread' ≠ thread ∧ s.Live thread' := by
  rw [State.Live, (finish_threads hlast).1]
  by_cases heq : thread' = thread
  · subst heq
    simp
  · simp [heq, State.Live]

/-- Exactly the steps in which the loop closes no socket that is in use. -/
theorem closesSafely_iff (h : Inv s) :
    ClosesSafely s a ↔ UsesOneSocket s a := by
  constructor
  · intro hsafe ha skt thread hlast
    have hclosed : Abandons a skt → a = .finish ∧ ∀ thread',
        (step s a).Live thread' → ¬ (step s a).holds (some thread') skt := by
      intro hab
      have hclosed := (closedByLoop_iff h).mpr ⟨ha, ⟨thread, hlast⟩, hab⟩
      obtain ⟨⟨t, hwaking, hdead⟩, hholds⟩ := hsafe skt hclosed
      rw [hlast.1, Option.some.injEq, Prod.mk.injEq] at hwaking
      rw [step_of_enabled ha, ← hwaking.2] at hdead
      exact ⟨finish_of_dead ha hlast hab hdead, hholds⟩
    cases a with
    | accept skt' => exact by_contra fun hne => nomatch (hclosed hne).1
    | receive skt' => exact by_contra fun hne => nomatch (hclosed hne).1
    | send skt' => exact by_contra fun hne => nomatch (hclosed hne).1
    | connect skt' timeout => exact fun htimeout => nomatch (hclosed htimeout).1
    | finish =>
        intro thread' hne hlive hholds
        have hrest := (hclosed trivial).2 thread'
        rw [step_of_enabled ha] at hrest
        refine hrest ((finish_live_iff hlast).mpr ⟨hne, hlive⟩) ?_
        rw [show (perform s .finish).holds = _ from (finish_threads hlast).2]
        exact hholds
    | newthread | give | drop | tcp | close | raise | dispatch | wake =>
        trivial
  · intro huse skt hclosed
    obtain ⟨ha, ⟨thread, hlast⟩, hab⟩ := (closedByLoop_iff h).mp hclosed
    have hcond := huse ha skt thread hlast
    cases a with
    | accept skt' => exact absurd hcond hab
    | receive skt' => exact absurd hcond hab
    | send skt' => exact absurd hcond hab
    | connect skt' timeout => exact absurd hab hcond
    | finish =>
        rw [step_of_enabled ha]
        have hthreads := finish_threads hlast
        refine ⟨⟨thread, hlast.1, ?_⟩, fun thread' hlive => ?_⟩
        · exact (congrFun hthreads.1 thread).trans (update_self _ _ _)
        · rw [show (perform s .finish).holds = _ from hthreads.2]
          have hother := (finish_live_iff hlast).mp hlive
          exact hcond thread' hother.1 hother.2
    | newthread | give | drop | tcp | close | raise | dispatch | wake =>
        exact hab.elim

end Step

/-! ## Runs -/

/-- In every run of the loop, whatever threads do and `select` reports, no
socket in use is closed exactly when the threads use one socket at a time. -/
theorem closes_safely_iff (actions : List (Action Thread Skt)) :
    AllAllowed step ClosesSafely actions .init ↔
      AllAllowed step UsesOneSocket actions .init :=
  allAllowed_iff_of_invariant Inv
    (fun _ a h _ => inv_step h a) (fun _ _ h => closesSafely_iff h) inv_init

/-- A thread that is connected to one socket and then connects another one: the
first is closed, and the thread waits for the second and holds both. -/
theorem closes_socket_in_use :
    let actions : List (Action ℕ ℕ) := [.newthread 0 [], .connect 0 true,
      .dispatch [] [0], .wake]
    let s := run step actions .init
    let s' := step s (.connect 1 true)
    Enabled s (.connect 1 true) ∧ ClosedByLoop s (.connect 1 true) 0 ∧
      s'.threads 0 = .waiting .write 1 ∧ s'.holds (some 0) 0 = true ∧
      ¬ AllAllowed step ClosesSafely (actions ++ [.connect 1 true]) .init := by
  intro actions s s'
  have hclosed : ClosedByLoop s (.connect 1 true) 0 :=
    ⟨by decide, by decide, nofun⟩
  have hthread : s'.threads 0 = .waiting .write 1 := by decide
  refine ⟨by decide, hclosed, hthread, by decide, fun hall => ?_⟩
  have hsafe := ((allAllowed_append actions _ _).mp hall).2.1
  obtain ⟨⟨t, hwaking, hdead⟩, -⟩ := hsafe 0 hclosed
  have hfirst : s.waking = some (0, 0) := by decide
  rw [show s.waking = some (0, t) from hwaking, Option.some.injEq,
    Prod.mk.injEq] at hfirst
  rw [hfirst.2] at hdead
  exact nomatch hthread.symm.trans hdead

end LuaAttic.Socketloop
