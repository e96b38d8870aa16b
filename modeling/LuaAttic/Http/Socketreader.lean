import LuaAttic.Lua.Chars

/-!
# Reading from a socket (`socketreader.lua`)

The readers are made over the `receive` of a luasocket socket, which reads a
line, a number of bytes or everything, and may time out at any byte.  When it
times out it returns what it has consumed as the partial result.
-/

namespace LuaAttic.Http.Socketreader

open LuaAttic.Lua

/-! ## Sockets -/

/-- What a socket meets while it receives: the next byte, or a timeout.  After
the last event the connection is closed. -/
inductive Event
  | byte (b : UInt8)
  | timeout
  deriving DecidableEq, Repr

/-- The bytes of the stream. -/
def bytes (events : List Event) : Bytes :=
  events.filterMap fun
    | .byte b => some b
    | .timeout => none

/-- The errors that `receive` returns. -/
inductive Err
  | timeout
  | closed
  deriving DecidableEq, Repr

/-- The patterns of `receive`: `'*l'` with a prefix, a size, and `'*a'`. -/
inductive ReceivePattern
  | line (start : Bytes)
  | size (n : ℕ)
  | all

/-- The string received, or nil with the error and the partial result. -/
abbrev Received := Except (Err × Bytes) Bytes

/-- A line after what has been received of it.  It ends at a line feed;
carriage returns are ignored. -/
def receivedLine (partial_ : Bytes) : List Event → Received × List Event
  | [] => (.error (.closed, partial_), [])
  | .timeout :: events => (.error (.timeout, partial_), events)
  | .byte b :: events =>
      if b = 0x0A then (.ok partial_, events)
      else if b = 0x0D then receivedLine partial_ events
      else receivedLine (partial_ ++ [b]) events

/-- As many bytes as are missing after what has been received. -/
def receivedSize : ℕ → Bytes → List Event → Received × List Event
  | 0, partial_, events => (.ok partial_, events)
  | _ + 1, partial_, [] => (.error (.closed, partial_), [])
  | _ + 1, partial_, .timeout :: events =>
      (.error (.timeout, partial_), events)
  | n + 1, partial_, .byte b :: events =>
      receivedSize n (partial_ ++ [b]) events

/-- All bytes until the connection is closed, which is an error only if there
are none. -/
def receivedAll (partial_ : Bytes) : List Event → Received × List Event
  | [] =>
      if partial_ = [] then (.error (.closed, []), []) else (.ok partial_, [])
  | .timeout :: events => (.error (.timeout, partial_), events)
  | .byte b :: events => receivedAll (partial_ ++ [b]) events

def received : ReceivePattern → List Event → Received × List Event
  | .line start, events => receivedLine start events
  | .size n, events => receivedSize n [] events
  | .all, events => receivedAll [] events

/-- A socket: what it is going to meet determines what it receives. -/
structure Socket where
  State : Type
  events : State → List Event
  receive : ReceivePattern → State → Received × State
  receive_spec : ∀ p s,
    ((receive p s).1, events (receive p s).2) = received p (events s)

/-! ## What is consumed -/

theorem length_receivedLine_le (w : Bytes) (events : List Event) :
    (receivedLine w events).2.length ≤ events.length - 1 := by
  induction events generalizing w with
  | nil => exact le_rfl
  | cons e events ih =>
      cases e with
      | timeout => exact le_rfl
      | byte b =>
          rw [receivedLine]
          split_ifs
          · exact le_rfl
          · exact (ih w).trans (Nat.sub_le _ _)
          · exact (ih (w ++ [b])).trans (Nat.sub_le _ _)

theorem length_receivedSize_le (n : ℕ) (w : Bytes) (events : List Event) :
    (receivedSize (n + 1) w events).2.length ≤ events.length - 1 := by
  induction events generalizing n w with
  | nil => exact le_rfl
  | cons e events ih =>
      cases e with
      | timeout => exact le_rfl
      | byte b =>
          cases n with
          | zero => exact le_rfl
          | succ n => exact (ih n (w ++ [b])).trans (Nat.sub_le _ _)

theorem length_receivedAll_le (w : Bytes) (events : List Event) :
    (receivedAll w events).2.length ≤ events.length - 1 := by
  induction events generalizing w with
  | nil =>
      rw [receivedAll]
      split_ifs <;> exact le_rfl
  | cons e events ih =>
      cases e with
      | timeout => exact le_rfl
      | byte b => exact (ih (w ++ [b])).trans (Nat.sub_le _ _)

/-- At the end of the stream nothing but an empty block is received. -/
theorem received_nil {p : ReceivePattern} (hp : p ≠ .size 0) :
    ∃ w, (received p []).1 = .error (.closed, w) := by
  rcases p with start | n | _
  · exact ⟨start, rfl⟩
  · cases n with
    | zero => exact absurd rfl hp
    | succ n => exact ⟨[], rfl⟩
  · exact ⟨[], rfl⟩

/-- Unless the connection is found closed, something of it is consumed. -/
theorem received_shorter {p : ReceivePattern} (hp : p ≠ .size 0)
    {events : List Event}
    (h : ∀ w, (received p events).1 ≠ .error (.closed, w)) :
    (received p events).2.length < events.length := by
  have hne : events ≠ [] := by
    rintro rfl
    rcases received_nil hp with ⟨w, hw⟩
    exact h w hw
  have hle : (received p events).2.length ≤ events.length - 1 := by
    rcases p with start | n | _
    · exact length_receivedLine_le start events
    · cases n with
      | zero => exact absurd rfl hp
      | succ n => exact length_receivedSize_le n [] events
    · exact length_receivedAll_le [] events
  exact hle.trans_lt (Nat.sub_one_lt (mt List.length_eq_zero_iff.mp hne))

section Socket

variable {S : Socket}

theorem Socket.receive_fst (S : Socket) (p : ReceivePattern) (s : S.State) :
    (S.receive p s).1 = (received p (S.events s)).1 :=
  congrArg Prod.fst (S.receive_spec p s)

theorem Socket.events_receive (S : Socket) (p : ReceivePattern) (s : S.State) :
    S.events (S.receive p s).2 = (received p (S.events s)).2 :=
  congrArg Prod.snd (S.receive_spec p s)

theorem receive_shorter {p : ReceivePattern} (hp : p ≠ .size 0)
    {s s' : S.State} {r : Received} (h : S.receive p s = (r, s'))
    (hr : ∀ w, r ≠ .error (.closed, w)) :
    (S.events s').length < (S.events s).length := by
  have hfst := S.receive_fst p s
  have hsnd := S.events_receive p s
  rw [h] at hfst hsnd
  rw [hsnd]
  apply received_shorter hp
  rwa [← hfst]

end Socket

/-! ## The modelled functions -/

/-- `readline(prefix)`.  After a timeout the line is asked for again with the
same prefix; the partial result is not used. -/
def readline (S : Socket) (start : Bytes) (s : S.State) :
    Except Err Bytes × S.State :=
  match _h : S.receive (.line start) s with
  | (.ok line, s') => (.ok line, s')
  | (.error (.timeout, _), s') => readline S start s'
  | (.error (.closed, _), s') => (.error .closed, s')
termination_by (S.events s).length
decreasing_by exact receive_shorter (by simp) _h (by simp)

/-- One call of the iterator that `readsize(sz)` returns: a string and what is
then left of `sz`, or nil at the end. -/
def nextPart (S : Socket) (sz : ℕ) (s : S.State) :
    Except Err (Option (Bytes × ℕ)) × S.State :=
  if sz = 0 then (.ok none, s)
  else
    match S.receive (.size sz) s with
    | (.ok w, s') => (.ok (some (w, sz - w.length)), s')
    | (.error (.timeout, w), s') => (.ok (some (w, sz - w.length)), s')
    | (.error (.closed, _), s') => (.error .closed, s')

theorem nextPart_shorter {S : Socket} {sz sz' : ℕ} {s s' : S.State} {w : Bytes}
    (h : nextPart S sz s = (.ok (some (w, sz')), s')) :
    (S.events s').length < (S.events s).length := by
  rw [nextPart] at h
  by_cases hsz : sz = 0
  · rw [if_pos hsz] at h
    cases h
  rw [if_neg hsz] at h
  have hp : ReceivePattern.size sz ≠ .size 0 := by simpa using hsz
  split at h
  · next hreceive =>
      cases h
      exact receive_shorter hp hreceive (by simp)
  · next hreceive =>
      cases h
      exact receive_shorter hp hreceive (by simp)
  · cases h

/-- `for s in readsize(sz) do`: the strings, and the error that ends the
loop. -/
def readsize (S : Socket) (sz : ℕ) (s : S.State) :
    (List Bytes × Option Err) × S.State :=
  match _h : nextPart S sz s with
  | (.ok none, s') => (([], none), s')
  | (.ok (some (w, sz')), s') =>
      let r := readsize S sz' s'
      ((w :: r.1.1, r.1.2), r.2)
  | (.error e, s') => (([], some e), s')
termination_by (S.events s).length
decreasing_by exact nextPart_shorter _h

/-- One call of the iterator that `readall()` returns: a string and whether the
connection has been found closed, or nil at the end. -/
def nextAll (S : Socket) (done : Bool) (s : S.State) :
    Option (Bytes × Bool) × S.State :=
  match S.receive .all s with
  | (.ok w, s') => (some (w, done), s')
  | (.error (.timeout, w), s') => (some (w, done), s')
  | (.error (.closed, w), s') =>
      if done then (none, s') else (some (w, true), s')

theorem nextAll_shorter {S : Socket} {done done' : Bool} {s s' : S.State}
    {w : Bytes} (h : nextAll S done s = (some (w, done'), s')) :
    Prod.Lex (· < ·) (· < ·) ((!done').toNat, (S.events s').length)
      ((!done).toNat, (S.events s).length) := by
  rw [nextAll] at h
  split at h
  · next hreceive =>
      cases h
      exact Prod.Lex.right _ (receive_shorter (by simp) hreceive (by simp))
  · next hreceive =>
      cases h
      exact Prod.Lex.right _ (receive_shorter (by simp) hreceive (by simp))
  · split_ifs at h with hdone
    · cases h
    · cases h
      exact Prod.Lex.left _ _ (by simp [hdone])

/-- `for s in readall() do`: the strings. -/
def readall (S : Socket) (done : Bool) (s : S.State) :
    List Bytes × S.State :=
  match _h : nextAll S done s with
  | (none, s') => ([], s')
  | (some (w, done'), s') =>
      let r := readall S done' s'
      (w :: r.1, r.2)
termination_by ((!done).toNat, (S.events s).length)
decreasing_by exact nextAll_shorter _h

/-! ## Equations of the loops -/

section Equations

variable {S : Socket} {s s' : S.State}

theorem readline_of_ok {start line : Bytes}
    (h : S.receive (.line start) s = (.ok line, s')) :
    readline S start s = (.ok line, s') := by
  rw [readline.eq_def]
  split <;> simp_all

theorem readline_of_timeout {start w : Bytes}
    (h : S.receive (.line start) s = (.error (.timeout, w), s')) :
    readline S start s = readline S start s' := by
  rw [readline.eq_def]
  split <;> simp_all

theorem readline_of_closed {start w : Bytes}
    (h : S.receive (.line start) s = (.error (.closed, w), s')) :
    readline S start s = (.error .closed, s') := by
  rw [readline.eq_def]
  split <;> simp_all

theorem readsize_of_none {sz : ℕ} (h : nextPart S sz s = (.ok none, s')) :
    readsize S sz s = (([], none), s') := by
  rw [readsize.eq_def]
  split <;> simp_all

theorem readsize_of_some {sz sz' : ℕ} {w : Bytes}
    (h : nextPart S sz s = (.ok (some (w, sz')), s')) :
    readsize S sz s =
      ((w :: (readsize S sz' s').1.1, (readsize S sz' s').1.2),
        (readsize S sz' s').2) := by
  rw [readsize.eq_def]
  split <;> simp_all

theorem readsize_of_error {sz : ℕ} {e : Err}
    (h : nextPart S sz s = (.error e, s')) :
    readsize S sz s = (([], some e), s') := by
  rw [readsize.eq_def]
  split <;> simp_all

theorem readall_of_none {done : Bool} (h : nextAll S done s = (none, s')) :
    readall S done s = ([], s') := by
  rw [readall.eq_def]
  split <;> simp_all

theorem readall_of_some {done done' : Bool} {w : Bytes}
    (h : nextAll S done s = (some (w, done'), s')) :
    readall S done s =
      (w :: (readall S done' s').1, (readall S done' s').2) := by
  rw [readall.eq_def]
  split <;> simp_all

end Equations

/-! ## Sequences of calls -/

/-- The calls on a socketreader; an iterator is consumed to its end or
error. -/
inductive Op
  | readline
  | readsize (n : ℕ)
  | readall
  deriving DecidableEq, Repr

/-- The line or the strings put together, and the error raised. -/
abbrev Output := Bytes × Option Err

/-- Perform a call. -/
def perform (S : Socket) (s : S.State) : Op → Output × S.State
  | .readline =>
      match readline S [] s with
      | (.ok line, s') => ((line, none), s')
      | (.error e, s') => (([], some e), s')
  | .readsize n =>
      let r := readsize S n s
      ((r.1.1.flatten, r.1.2), r.2)
  | .readall =>
      let r := readall S false s
      ((r.1.flatten, none), r.2)

/-- The socket after a call. -/
def step (S : Socket) (s : S.State) (op : Op) : S.State := (perform S s op).2

/-- What a call returns. -/
def output (S : Socket) (s : S.State) (op : Op) : Output := (perform S s op).1

end LuaAttic.Http.Socketreader
