import LuaAttic.Support.Run
import LuaAttic.Http.Socketreader

/-!
# What timeouts do to the readers of a socket

A timeout never moves the place in the stream that a call reaches.  The blocks
lose nothing, since the partial results are returned.  A line loses what was
received of it before a timeout, so `readline` returns the line that it returns
without timeouts exactly when no timeout falls inside of it.
-/

namespace LuaAttic.Http.Socketreader

open LuaAttic.Lua LuaAttic.Support

/-! ## Calls on the events themselves -/

/-- What `readline` returns after it has received `w` of the line. -/
def lineOn (w : Bytes) : List Event → Output × List Event
  | [] => (([], some .closed), [])
  | .timeout :: events => lineOn [] events
  | .byte b :: events =>
      if b = 0x0A then ((w, none), events)
      else if b = 0x0D then lineOn w events
      else lineOn (w ++ [b]) events

/-- What the strings of `readsize` come to when `n` bytes are still missing and
`w` has been received since the last of them. -/
def sizeOn : ℕ → Bytes → List Event → Output × List Event
  | 0, w, events => ((w, none), events)
  | _ + 1, _, [] => (([], some .closed), [])
  | n + 1, w, .timeout :: events =>
      ((w ++ (sizeOn (n + 1) [] events).1.1, (sizeOn (n + 1) [] events).1.2),
        (sizeOn (n + 1) [] events).2)
  | n + 1, w, .byte b :: events => sizeOn n (w ++ [b]) events

/-- What a call comes to, and the events that it leaves. -/
def serve (events : List Event) : Op → Output × List Event
  | .readline => lineOn [] events
  | .readsize n => sizeOn n [] events
  | .readall => ((bytes events, none), [])

section Receive

variable (w : Bytes) (events : List Event)

theorem lineOn_eq :
    lineOn w events =
      match receivedLine w events with
      | (.ok line, rest) => ((line, none), rest)
      | (.error (.timeout, _), rest) => lineOn [] rest
      | (.error (.closed, _), rest) => (([], some .closed), rest) := by
  induction events generalizing w with
  | nil => rfl
  | cons e events ih =>
      rcases e with b | _
      · rw [lineOn, receivedLine]
        split_ifs
        · rfl
        · exact ih w
        · exact ih (w ++ [b])
      · rfl

theorem sizeOn_eq (n : ℕ) :
    sizeOn n w events =
      match receivedSize n w events with
      | (.ok s, rest) => ((s, none), rest)
      | (.error (.timeout, s), rest) =>
          let r := sizeOn (n + w.length - s.length) [] rest
          ((s ++ r.1.1, r.1.2), r.2)
      | (.error (.closed, _), rest) => (([], some .closed), rest) := by
  induction events generalizing n w with
  | nil => cases n <;> rfl
  | cons e events ih =>
      rcases n with _ | n
      · rfl
      · rcases e with b | _
        · rw [sizeOn, receivedSize, ih (w ++ [b]) n]
          have hlen : n + (w ++ [b]).length = n + 1 + w.length := by
            simp only [List.length_append, List.length_singleton]
            omega
          rw [hlen]
        · simp only [sizeOn, receivedSize, Nat.add_sub_cancel]

theorem length_of_receivedSize {n : ℕ} {w s : Bytes} {events : List Event}
    (h : (receivedSize n w events).1 = .ok s) : s.length = w.length + n := by
  induction events generalizing n w with
  | nil =>
      rcases n with _ | n
      · cases h
        rfl
      · cases h
  | cons e events ih =>
      rcases n with _ | n
      · cases h
        rfl
      · rcases e with b | _
        · rw [ih h, List.length_append, List.length_singleton]
          omega
        · cases h

theorem bytes_receivedAll :
    match receivedAll w events with
    | (.ok s, rest) => s = w ++ bytes events ∧ rest = []
    | (.error (.timeout, s), rest) => s ++ bytes rest = w ++ bytes events
    | (.error (.closed, s), rest) => s = [] ∧ w ++ bytes events = [] ∧ rest = [] := by
  induction events generalizing w with
  | nil =>
      rw [receivedAll]
      by_cases hw : w = []
      · rw [if_pos hw]
        exact ⟨rfl, by rw [hw]; rfl, rfl⟩
      · rw [if_neg hw]
        exact ⟨(List.append_nil w).symm, rfl⟩
  | cons e events ih =>
      rcases e with b | _
      · have hih := ih (w ++ [b])
        have hbytes : bytes (.byte b :: events) = b :: bytes events := rfl
        rw [hbytes]
        simpa [receivedAll] using hih
      · rfl

end Receive

section Perform

variable {S : Socket}

theorem received_of_receive {p : ReceivePattern} {s s' : S.State}
    {r : Received} (h : S.receive p s = (r, s')) :
    received p (S.events s) = (r, S.events s') := by
  rw [← S.receive_spec p s, h]

theorem perform_readline (s : S.State) :
    ((perform S s .readline).1, S.events (perform S s .readline).2) =
      lineOn [] (S.events s) := by
  induction hlen : (S.events s).length using Nat.strong_induction_on
    generalizing s with
  | _ len ih =>
  rcases h : S.receive (.line []) s with ⟨⟨e, w⟩ | line, s'⟩
  · have hevents : receivedLine [] (S.events s) = _ := received_of_receive h
    rw [lineOn_eq, hevents]
    rcases e with _ | _
    · have hless : (S.events s').length < len := by
        rw [← hlen]
        exact receive_shorter (by simp) h (by simp)
      simp only [perform, readline_of_timeout h]
      exact ih _ hless s' rfl
    · simp only [perform, readline_of_closed h]
  · have hevents : receivedLine [] (S.events s) = _ := received_of_receive h
    rw [lineOn_eq, hevents]
    simp only [perform, readline_of_ok h]

theorem perform_readsize (n : ℕ) (s : S.State) :
    ((perform S s (.readsize n)).1,
        S.events (perform S s (.readsize n)).2) =
      sizeOn n [] (S.events s) := by
  induction hlen : (S.events s).length using Nat.strong_induction_on
    generalizing n s with
  | _ len ih =>
  rcases n with _ | n
  · have hnext : nextPart S 0 s = (.ok none, s) := rfl
    simp only [perform, readsize_of_none hnext, sizeOn, List.flatten_nil]
  · have hn : n + 1 ≠ 0 := Nat.succ_ne_zero n
    rcases h : S.receive (.size (n + 1)) s with ⟨⟨e, w⟩ | w, s'⟩
    · have hevents : receivedSize (n + 1) [] (S.events s) = _ :=
        received_of_receive h
      rw [sizeOn_eq, hevents]
      rcases e with _ | _
      · have hnext : nextPart S (n + 1) s =
            (.ok (some (w, n + 1 - w.length)), s') := by
          rw [nextPart, if_neg hn, h]
        have hless : (S.events s').length < len := by
          rw [← hlen]
          exact nextPart_shorter hnext
        have hrest := ih _ hless (n + 1 - w.length) s' rfl
        simp only [perform, readsize_of_some hnext] at hrest ⊢
        simp only [List.length_nil, Nat.add_zero, ← hrest, List.flatten_cons]
      · have hnext : nextPart S (n + 1) s = (.error .closed, s') := by
          rw [nextPart, if_neg hn, h]
        simp only [perform, readsize_of_error hnext, List.flatten_nil]
    · have hevents : receivedSize (n + 1) [] (S.events s) = _ :=
        received_of_receive h
      have hlength : w.length = n + 1 := by
        have hok : (receivedSize (n + 1) [] (S.events s)).1 = .ok w := by
          rw [hevents]
        simpa using length_of_receivedSize hok
      have hnext : nextPart S (n + 1) s = (.ok (some (w, 0)), s') := by
        simp only [nextPart, if_neg hn, h, hlength, Nat.sub_self]
      have hend : nextPart S 0 s' = (.ok none, s') := rfl
      rw [sizeOn_eq, hevents]
      simp only [perform, readsize_of_some hnext, readsize_of_none hend,
        List.flatten_cons, List.flatten_nil, List.append_nil]

theorem nextAll_none {done : Bool} {s s' : S.State}
    (h : nextAll S done s = (none, s')) :
    bytes (S.events s) = [] ∧ S.events s' = [] := by
  rcases hr : S.receive .all s with ⟨⟨e, w⟩ | w, t⟩
  · have hbytes := bytes_receivedAll [] (S.events s)
    rw [show receivedAll [] (S.events s) = _ from received_of_receive hr]
      at hbytes
    rcases e with _ | _
    · simp [nextAll, hr] at h
    · simp only [nextAll, hr] at h
      split_ifs at h
      · cases h
        exact ⟨hbytes.2.1, hbytes.2.2⟩
      · cases h
  · simp [nextAll, hr] at h

theorem nextAll_some {done done' : Bool} {s s' : S.State} {w : Bytes}
    (h : nextAll S done s = (some (w, done'), s')) :
    bytes (S.events s) = w ++ bytes (S.events s') := by
  rcases hr : S.receive .all s with ⟨⟨e, v⟩ | v, t⟩
  · have hbytes := bytes_receivedAll [] (S.events s)
    rw [show receivedAll [] (S.events s) = _ from received_of_receive hr]
      at hbytes
    rcases e with _ | _
    · simp only [nextAll, hr] at h
      cases h
      exact hbytes.symm
    · simp only [nextAll, hr] at h
      split_ifs at h
      · cases h
      · cases h
        rw [hbytes.1, hbytes.2.2]
        exact hbytes.2.1
  · have hbytes := bytes_receivedAll [] (S.events s)
    rw [show receivedAll [] (S.events s) = _ from received_of_receive hr]
      at hbytes
    simp only [nextAll, hr] at h
    cases h
    rw [hbytes.1, hbytes.2]
    exact (List.append_nil _).symm

/-- All bytes of the stream are returned, whatever the timeouts. -/
theorem readall_spec (done : Bool) (s : S.State) :
    (readall S done s).1.flatten = bytes (S.events s) ∧
      S.events (readall S done s).2 = [] := by
  induction done, s using readall.induct S with
  | case1 done s s' h =>
      rw [readall_of_none h, (nextAll_none h).1]
      exact ⟨rfl, (nextAll_none h).2⟩
  | case2 done s w done' s' h ih =>
      rw [readall_of_some h, nextAll_some h, List.flatten_cons, ih.1]
      exact ⟨rfl, ih.2⟩

/-- A call does what the events that the socket is going to meet say. -/
theorem perform_spec (s : S.State) (op : Op) :
    ((perform S s op).1, S.events (perform S s op).2) =
      serve (S.events s) op := by
  rcases op with _ | n | _
  · exact perform_readline s
  · exact perform_readsize n s
  · rcases readall_spec false s with ⟨hbytes, hrest⟩
    simp only [perform, serve, hbytes, hrest]

end Perform

/-! ## Without timeouts -/

/-- The same bytes without a timeout. -/
def noTimeouts (events : List Event) : List Event := (bytes events).map .byte

@[simp] theorem bytes_map_byte (s : Bytes) : bytes (s.map .byte) = s := by
  simp [bytes, List.filterMap_map]

@[simp] theorem bytes_byte (b : UInt8) (events : List Event) :
    bytes (.byte b :: events) = b :: bytes events := rfl

@[simp] theorem bytes_timeout (events : List Event) :
    bytes (.timeout :: events) = bytes events := rfl

/-- The first line of a stream, without carriage returns, and what is after
it. -/
def lineOfBytes : Bytes → Option (Bytes × Bytes)
  | [] => none
  | b :: s =>
      if b = 0x0A then some ([], s)
      else (lineOfBytes s).map fun r =>
        (if b = 0x0D then r.1 else b :: r.1, r.2)

theorem lineOfBytes_eq_none_iff {s : Bytes} :
    lineOfBytes s = none ↔ 0x0A ∉ s := by
  induction s with
  | nil => simp [lineOfBytes]
  | cons b s ih =>
      rw [lineOfBytes]
      by_cases hb : b = 0x0A
      · simp [hb]
      · rw [if_neg hb, Option.map_eq_none_iff, ih, List.mem_cons, not_or]
        exact (and_iff_right (Ne.symm hb)).symm

/-- No timeout falls after a byte of the line, when `w` has been received
before. -/
def LineClean (w : Bytes) (events : List Event) : Prop :=
  ∀ pre post, events = pre ++ .timeout :: post → 0x0A ∉ bytes pre →
    w = [] ∧ ∀ b ∈ bytes pre, b = 0x0D

theorem lineClean_timeout {w : Bytes} {events : List Event} :
    LineClean w (.timeout :: events) ↔ w = [] ∧ LineClean [] events := by
  constructor
  · intro h
    refine ⟨(h [] events rfl (by simp [bytes])).1, ?_⟩
    rintro pre post rfl hpre
    exact ⟨rfl, (h (.timeout :: pre) post rfl hpre).2⟩
  · rintro ⟨rfl, h⟩ pre post heq hpre
    rcases pre with _ | ⟨e, pre⟩
    · exact ⟨rfl, by simp [bytes]⟩
    · rw [List.cons_append, List.cons.injEq] at heq
      rcases heq with ⟨rfl, heq⟩
      exact h pre post heq hpre

theorem lineClean_byte {w : Bytes} {b : UInt8} {events : List Event} :
    LineClean w (.byte b :: events) ↔
      (b ≠ 0x0A → LineClean (if b = 0x0D then w else w ++ [b]) events) := by
  constructor
  · rintro h hb pre post rfl hpre
    have hmem : 0x0A ∉ bytes (.byte b :: pre) := by
      simp [Ne.symm hb, hpre]
    rcases h (.byte b :: pre) post rfl hmem with ⟨rfl, hall⟩
    rw [bytes_byte, List.forall_mem_cons] at hall
    exact ⟨if_pos hall.1, hall.2⟩
  · rintro h pre post heq hpre
    rcases pre with _ | ⟨e, pre⟩
    · cases heq
    · rw [List.cons_append, List.cons.injEq] at heq
      rcases heq with ⟨rfl, heq⟩
      rw [bytes_byte, List.mem_cons, not_or] at hpre
      rcases h (Ne.symm hpre.1) pre post heq hpre.2 with ⟨hw, hall⟩
      split_ifs at hw with hb
      · exact ⟨hw, List.forall_mem_cons.mpr ⟨hb, hall⟩⟩
      · simp at hw

/-- A line is returned as far as it was received after the last timeout. -/
theorem lineOn_of_some {w l r : Bytes} {events : List Event}
    (h : lineOfBytes (bytes events) = some (l, r)) :
    ∃ v, (lineOn w events).1 = (v, none) ∧
      bytes (lineOn w events).2 = r ∧ v.length ≤ w.length + l.length ∧
      (v = w ++ l ↔ LineClean w events) := by
  induction events generalizing w l with
  | nil => cases h
  | cons e events ih =>
      rcases e with b | _
      · rw [bytes_byte, lineOfBytes] at h
        rw [lineClean_byte, lineOn]
        by_cases hb : b = 0x0A
        · rw [if_pos hb] at h
          cases h
          rw [if_pos hb]
          exact ⟨w, rfl, rfl, Nat.le_add_right _ _, by simp [hb]⟩
        · rw [if_neg hb] at h
          rw [if_neg hb]
          rcases Option.map_eq_some_iff.mp h with ⟨⟨l', r'⟩, hrest, heq⟩
          cases heq
          by_cases hcr : b = 0x0D
          · simp only [if_pos hcr]
            rcases ih (w := w) hrest with ⟨v, hv, hbytes, hlen, hiff⟩
            exact ⟨v, hv, hbytes, hlen, by simp [hiff, hb]⟩
          · simp only [if_neg hcr]
            rcases ih (w := w ++ [b]) hrest with ⟨v, hv, hbytes, hlen, hiff⟩
            refine ⟨v, hv, hbytes, ?_, ?_⟩
            · simpa [Nat.add_assoc, Nat.add_comm, Nat.add_left_comm] using hlen
            · simpa [hb] using hiff
      · rcases ih (w := []) h with ⟨v, hv, hbytes, hlen, hiff⟩
        rw [lineClean_timeout, ← hiff]
        refine ⟨v, hv, hbytes, ?_, ?_⟩
        · exact hlen.trans (Nat.add_le_add_right (Nat.zero_le _) _)
        · constructor
          · intro hvl
            have hw : w = [] := by
              rw [hvl, List.length_append, List.length_nil] at hlen
              exact List.length_eq_zero_iff.mp (by omega)
            exact ⟨hw, by rw [hvl, hw]⟩
          · rintro ⟨rfl, hvl⟩
            exact hvl

theorem lineOn_of_none {w : Bytes} {events : List Event}
    (h : lineOfBytes (bytes events) = none) :
    lineOn w events = (([], some .closed), []) := by
  induction events generalizing w with
  | nil => rfl
  | cons e events ih =>
      rcases e with b | _
      · rw [bytes_byte, lineOfBytes] at h
        by_cases hb : b = 0x0A
        · rw [if_pos hb] at h
          cases h
        · rw [if_neg hb] at h
          have hrest := Option.map_eq_none_iff.mp h
          rw [lineOn, if_neg hb]
          split_ifs
          · exact ih hrest
          · exact ih hrest
      · exact ih h

/-- No timeout falls after a byte, when `w` has been received before. -/
def SizeClean (w : Bytes) (events : List Event) : Prop :=
  ∀ pre post, events = pre ++ .timeout :: post → w = [] ∧ bytes pre = []

theorem sizeClean_timeout {w : Bytes} {events : List Event} :
    SizeClean w (.timeout :: events) ↔ w = [] ∧ SizeClean [] events := by
  constructor
  · intro h
    refine ⟨(h [] events rfl).1, ?_⟩
    rintro pre post rfl
    exact ⟨rfl, (h (.timeout :: pre) post rfl).2⟩
  · rintro ⟨rfl, h⟩ pre post heq
    rcases pre with _ | ⟨e, pre⟩
    · exact ⟨rfl, rfl⟩
    · rw [List.cons_append, List.cons.injEq] at heq
      rcases heq with ⟨rfl, heq⟩
      exact h pre post heq

theorem sizeClean_byte {w : Bytes} {b : UInt8} {events : List Event} :
    SizeClean w (.byte b :: events) ↔ SizeClean (w ++ [b]) events := by
  constructor
  · rintro h pre post rfl
    exact absurd (h (.byte b :: pre) post rfl).2 (List.cons_ne_nil b _)
  · rintro h pre post heq
    rcases pre with _ | ⟨e, pre⟩
    · cases heq
    · rw [List.cons_append, List.cons.injEq] at heq
      have hw := (h pre post heq.2).1
      simp at hw

/-- A block that the stream completes is returned whole. -/
theorem sizeOn_of_le {n : ℕ} {w : Bytes} {events : List Event}
    (h : n ≤ (bytes events).length) :
    (sizeOn n w events).1 = (w ++ (bytes events).take n, none) ∧
      bytes (sizeOn n w events).2 = (bytes events).drop n := by
  induction events generalizing n w with
  | nil =>
      have hn : n = 0 := Nat.le_zero.mp h
      rw [hn]
      exact ⟨by simp [sizeOn], rfl⟩
  | cons e events ih =>
      rcases n with _ | n
      · simp [sizeOn]
      · rcases e with b | _
        · rcases ih (n := n) (w := w ++ [b]) (Nat.le_of_succ_le_succ h) with
            ⟨hout, hrest⟩
          rw [sizeOn]
          exact ⟨by simpa using hout, hrest⟩
        · rcases ih (w := []) h with ⟨hout, hrest⟩
          rw [sizeOn]
          exact ⟨by simp [hout], hrest⟩

/-- Of a block that the stream does not complete, what was received before the
last timeout is returned. -/
theorem sizeOn_of_lt {n : ℕ} {w : Bytes} {events : List Event}
    (h : (bytes events).length < n) :
    ∃ v, sizeOn n w events = ((v, some .closed), []) ∧
      (v = [] ↔ SizeClean w events) := by
  induction events generalizing n w with
  | nil =>
      rcases n with _ | n
      · cases h
      · exact ⟨[], rfl, iff_of_true rfl (by rintro (_ | _) post <;> simp)⟩
  | cons e events ih =>
      rcases n with _ | n
      · cases h
      · rcases e with b | _
        · rw [sizeClean_byte]
          exact ih (Nat.lt_of_succ_lt_succ h)
        · rcases ih (w := []) h with ⟨v, hv, hiff⟩
          rw [sizeClean_timeout, ← hiff]
          exact ⟨w ++ v, by rw [sizeOn, hv], by simp⟩

theorem timeout_notMem_noTimeouts (events : List Event) :
    Event.timeout ∉ noTimeouts events := by
  simp [noTimeouts]

theorem lineClean_noTimeouts (w : Bytes) (events : List Event) :
    LineClean w (noTimeouts events) := by
  intro pre post heq
  exact absurd (by simp [heq]) (timeout_notMem_noTimeouts events)

theorem sizeClean_noTimeouts (w : Bytes) (events : List Event) :
    SizeClean w (noTimeouts events) := by
  intro pre post heq
  exact absurd (by simp [heq]) (timeout_notMem_noTimeouts events)

theorem lineOn_suffix (w : Bytes) (events : List Event) :
    (lineOn w events).2 <:+ events := by
  induction events generalizing w with
  | nil => exact List.suffix_refl []
  | cons e events ih =>
      rcases e with b | _
      · rw [lineOn]
        split_ifs
        · exact List.suffix_cons _ events
        · exact (ih w).trans (List.suffix_cons _ events)
        · exact (ih (w ++ [b])).trans (List.suffix_cons _ events)
      · exact (ih []).trans (List.suffix_cons _ events)

theorem sizeOn_suffix (n : ℕ) (w : Bytes) (events : List Event) :
    (sizeOn n w events).2 <:+ events := by
  induction events generalizing n w with
  | nil => rcases n with _ | n <;> exact List.suffix_refl []
  | cons e events ih =>
      rcases n with _ | n
      · exact List.suffix_refl _
      · rcases e with b | _
        · exact (ih n (w ++ [b])).trans (List.suffix_cons _ events)
        · exact (ih (n + 1) []).trans (List.suffix_cons _ events)

theorem serve_suffix (events : List Event) (op : Op) :
    (serve events op).2 <:+ events := by
  rcases op with _ | n | _
  · exact lineOn_suffix [] events
  · exact sizeOn_suffix n [] events
  · exact List.nil_suffix

/-- Events without a timeout are determined by their bytes. -/
theorem eq_of_bytes_eq {e e' : List Event} (h : bytes e = bytes e')
    (he : Event.timeout ∉ e) (he' : Event.timeout ∉ e') : e = e' := by
  have hmap : ∀ l : List Event, Event.timeout ∉ l → (bytes l).map .byte = l := by
    intro l hl
    induction l with
    | nil => rfl
    | cons x l ih =>
        rw [List.mem_cons, not_or] at hl
        rcases x with b | _
        · rw [bytes_byte, List.map_cons, ih hl.2]
        · exact absurd rfl hl.1
  rw [← hmap e he, ← hmap e' he', h]

/-! ## The same as without timeouts -/

/-- The timeouts that do not matter to a call: none falls after a byte, other
than a carriage return, of a line that the stream completes, and none after the
first byte of a block that the stream does not complete. -/
def Op.Clean (events : List Event) : Op → Prop
  | .readline => 0x0A ∈ bytes events → LineClean [] events
  | .readsize n => (bytes events).length < n → SizeClean [] events
  | .readall => True

theorem bytes_serve (events : List Event) (op : Op) :
    bytes (serve events op).2 = bytes (serve (noTimeouts events) op).2 := by
  have hsame : bytes (noTimeouts events) = bytes events := bytes_map_byte _
  rcases op with _ | n | _
  · cases h : lineOfBytes (bytes events) with
    | none =>
        simp only [serve]
        rw [lineOn_of_none h, lineOn_of_none (hsame ▸ h)]
    | some r =>
        rcases lineOn_of_some (w := []) h with ⟨_, -, hrest, -⟩
        rcases lineOn_of_some (w := []) (hsame.symm ▸ h) with ⟨_, -, hrest', -⟩
        exact hrest.trans hrest'.symm
  · rcases Nat.lt_or_ge (bytes events).length n with hlt | hle
    · rcases sizeOn_of_lt (w := []) hlt with ⟨_, hv, -⟩
      rcases sizeOn_of_lt (w := []) (hsame.symm ▸ hlt) with ⟨_, hv', -⟩
      simp only [serve]
      rw [hv, hv']
    · have hrest := (sizeOn_of_le (w := []) hle).2
      have hrest' := (sizeOn_of_le (w := []) (hsame.symm ▸ hle)).2
      exact hrest.trans (hrest'.trans (by rw [hsame])).symm
  · rfl

/-- A call reaches the same place in the stream whatever the timeouts. -/
theorem noTimeouts_serve (events : List Event) (op : Op) :
    noTimeouts (serve events op).2 = (serve (noTimeouts events) op).2 := by
  apply eq_of_bytes_eq
  · rw [noTimeouts, bytes_map_byte, bytes_serve]
  · exact timeout_notMem_noTimeouts _
  · intro hmem
    exact timeout_notMem_noTimeouts events ((serve_suffix _ op).subset hmem)

/-- A call returns the same as without timeouts exactly when they do not
matter to it. -/
theorem serve_eq_iff (events : List Event) (op : Op) :
    (serve events op).1 = (serve (noTimeouts events) op).1 ↔
      op.Clean events := by
  have hsame : bytes (noTimeouts events) = bytes events := bytes_map_byte _
  rcases op with _ | n | _
  · cases h : lineOfBytes (bytes events) with
    | none =>
        have hmem := lineOfBytes_eq_none_iff.mp h
        simp only [serve]
        rw [lineOn_of_none h, lineOn_of_none (hsame ▸ h)]
        exact iff_of_true rfl fun hlf => absurd hlf hmem
    | some r =>
        have hmem : 0x0A ∈ bytes events := by
          by_contra hnot
          rw [lineOfBytes_eq_none_iff.mpr hnot] at h
          cases h
        rcases lineOn_of_some (w := []) h with ⟨v, hv, -, -, hiff⟩
        rcases lineOn_of_some (w := []) (hsame.symm ▸ h) with
          ⟨v', hv', -, -, hiff'⟩
        have hv'' : v' = r.1 := hiff'.mpr (lineClean_noTimeouts [] events)
        simp only [serve]
        rw [hv, hv', hv'']
        simpa [Op.Clean, hmem] using hiff
  · rcases Nat.lt_or_ge (bytes events).length n with hlt | hle
    · rcases sizeOn_of_lt (w := []) hlt with ⟨v, hv, hiff⟩
      rcases sizeOn_of_lt (w := []) (hsame.symm ▸ hlt) with ⟨v', hv', hiff'⟩
      have hv'' : v' = [] := hiff'.mpr (sizeClean_noTimeouts [] events)
      simp only [serve]
      rw [hv, hv', hv'']
      simpa [Op.Clean, hlt] using hiff
    · have hout := (sizeOn_of_le (w := []) hle).1
      have hout' := (sizeOn_of_le (w := []) (hsame.symm ▸ hle)).1
      simp only [serve]
      rw [hout, hout', hsame]
      exact iff_of_true rfl fun hlt => absurd hle (not_le.mpr hlt)
  · exact iff_of_true (by simp [serve, hsame]) trivial

/-! ## Runs -/

section Runs

variable {S S' : Socket}

/-- The calls of a run return what the events of the socket say. -/
theorem outputs_eq_serve (s : S.State) (ops : List Op) :
    outputs (step S) (output S) ops s =
      outputs (fun events op => (serve events op).2)
        (fun events op => (serve events op).1) ops (S.events s) := by
  induction ops generalizing s with
  | nil => rfl
  | cons op ops ih =>
      have hspec := perform_spec s op
      have hout : output S s op = (serve (S.events s) op).1 :=
        congrArg Prod.fst hspec
      have hevents : S.events (step S s op) = (serve (S.events s) op).2 :=
        congrArg Prod.snd hspec
      rw [outputs, outputs, hout, ih, hevents]

/-- Every call of a run returns the same line, or strings that come to the
same, as when no timeout occurs, if and only if the timeouts do not matter to
any of the calls. -/
theorem returns_same_iff (s : S.State) (s' : S'.State) (ops : List Op)
    (h : S'.events s' = noTimeouts (S.events s)) :
    outputs (step S) (output S) ops s = outputs (step S') (output S') ops s' ↔
      AllAllowed (step S) (fun s op => op.Clean (S.events s)) ops s := by
  have hstep : ∀ (s : S.State) (op : Op),
      noTimeouts (S.events (step S s op)) =
        (serve (noTimeouts (S.events s)) op).2 := by
    intro s op
    rw [← noTimeouts_serve]
    exact congrArg (noTimeouts ∘ Prod.snd) (perform_spec s op)
  have hclean : ∀ (s : S.State) (op : Op),
      output S s op = (serve (noTimeouts (S.events s)) op).1 ↔
        op.Clean (S.events s) := by
    intro s op
    rw [← serve_eq_iff]
    exact Eq.congr_left (congrArg Prod.fst (perform_spec s op))
  have houtputs := outputs_eq_iff (step S) (output S)
    (fun events op => (serve events op).2)
    (fun events op => (serve events op).1)
    (fun s => noTimeouts (S.events s)) id hstep ops s
  rw [List.map_id] at houtputs
  rw [outputs_eq_serve s', h, houtputs]
  constructor
  · exact AllAllowed.mono fun s op => (hclean s op).mp
  · exact AllAllowed.mono fun s op => (hclean s op).mpr

end Runs

/-- A socket that meets the events of a list. -/
def eventsSocket : Socket where
  State := List Event
  events := id
  receive := received
  receive_spec _ _ := rfl

/-- A timeout before the line and two within the block do not matter. -/
theorem returns_same_iff_clean :
    let events : List Event := [.timeout, .byte 0x61, .byte 0x0A, .byte 0x62,
      .timeout, .byte 0x63, .timeout, .byte 0x64]
    outputs (step eventsSocket) (output eventsSocket) [.readline, .readsize 3]
        events =
      outputs (step eventsSocket) (output eventsSocket)
        [.readline, .readsize 3] (noTimeouts events) ↔
      AllAllowed (step eventsSocket) (fun events op => op.Clean events)
        [.readline, .readsize 3] events :=
  @returns_same_iff eventsSocket eventsSocket _ _ _ rfl

/-- A timeout within a line: what was received of it before is lost. -/
theorem timeout_in_line :
    output eventsSocket [.byte 0x61, .timeout, .byte 0x62, .byte 0x0A]
        .readline = ([0x62], none) ∧
      output eventsSocket [.byte 0x61, .byte 0x62, .byte 0x0A] .readline =
        ([0x61, 0x62], none) := by
  have houtput : ∀ events : eventsSocket.State,
      output eventsSocket events .readline = (lineOn [] events).1 :=
    fun events => congrArg Prod.fst (perform_spec events .readline)
  exact ⟨(houtput _).trans rfl, (houtput _).trans rfl⟩

end LuaAttic.Http.Socketreader
