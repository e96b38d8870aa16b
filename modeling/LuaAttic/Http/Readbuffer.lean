import Mathlib.Order.WellFounded
import LuaAttic.Lua.Pattern

/-!
# Buffered reading (`readbuffer.lua`)

A readbuffer is made over a function `read(size)` that returns the next piece
of a stream, of at most `size` bytes, and nil at its end.  What has been read
and not yet delivered stays in the buffer, which holds up to `bufsize` bytes.
-/

namespace LuaAttic.Http

open LuaAttic.Lua

/-! ## The function that is read from -/

/-- A function `read(size)` with the stream that it delivers.  It may return
the empty string, but not forever. -/
structure Reader where
  State : Type
  read : State → Int → Option Bytes × State
  rest : State → Bytes
  of_some : ∀ {s s' : State} {size : Int} {p : Bytes}, 0 < size →
    read s size = (some p, s') → (p.length : Int) ≤ size ∧ rest s = p ++ rest s'
  of_none : ∀ {s s' : State} {size : Int}, 0 < size →
    read s size = (none, s') → rest s = [] ∧ rest s' = []
  finite : WellFounded fun s' s : State =>
    ∃ size p, 0 < size ∧ read s size = (some p, s')

/-- Reading goes on from the second state to the first one. -/
def Reader.Later (R : Reader) : R.State → R.State → Prop :=
  Relation.TransGen fun s' s => ∃ size p, 0 < size ∧ R.read s size = (some p, s')

instance (R : Reader) : WellFoundedRelation R.State where
  rel := R.Later
  wf := R.finite.transGen

namespace Readbuffer

/-- The errors that a readbuffer raises. -/
inductive Error
  | bufferOverflow
  | eof
  | invalidFlushsize
  deriving DecidableEq, Repr

/-- The texts of the errors. -/
def Error.message : Error → Bytes
  | .bufferOverflow => lit "buffer overflow"
  | .eof => lit "eof"
  | .invalidFlushsize => lit "invalid flushsize"

/-- The buffer, and how far the stream has been read. -/
structure Buffer (R : Reader) where
  buf : Bytes
  conn : R.State

variable {R : Reader}

/-- `readbuffer(read, bufsize)` -/
def new (conn : R.State) : Buffer R := ⟨[], conn⟩

/-- What is still to be delivered: the buffer and the rest of the stream. -/
def Buffer.remaining (b : Buffer R) : Bytes := b.buf ++ R.rest b.conn

/-- `load()`; false at the end of the stream. -/
def load (bufsize : Int) : EStateM Error (Buffer R) Bool := fun b =>
  let size := bufsize - b.buf.length
  if 0 < size then
    match R.read b.conn size with
    | (some s, conn) => .ok true ⟨b.buf ++ s, conn⟩
    | (none, conn) => .ok false ⟨b.buf, conn⟩
  else .error .bufferOverflow b

/-- The buffer holds no more than it may. -/
def Buffer.Fits (bufsize : Int) (b : Buffer R) : Prop :=
  b.buf.length ≤ bufsize.toNat

/-- What `load` can do: read a piece, come to the end, or find the buffer
full. -/
inductive Loaded (bufsize : Int) (b : Buffer R) :
    EStateM.Result Error (Buffer R) Bool → Prop
  | piece {s : Bytes} {b' : Buffer R} : R.Later b'.conn b.conn →
      b'.buf = b.buf ++ s → b'.remaining = b.remaining → b'.Fits bufsize →
      Loaded bufsize b (.ok true b')
  | ended {b' : Buffer R} : b'.buf = b.buf → b'.remaining = b.buf →
      b.remaining = b.buf → (b.buf.length : Int) < bufsize →
      Loaded bufsize b (.ok false b')
  | full : bufsize ≤ b.buf.length →
      Loaded bufsize b (.error .bufferOverflow b)

theorem load_cases (bufsize : Int) (b : Buffer R) :
    Loaded bufsize b (load bufsize b) := by
  rw [load]
  split_ifs with hsize
  · split
    · next s conn hread =>
        have hsome := R.of_some hsize hread
        apply Loaded.piece (Relation.TransGen.single ⟨_, s, hsize, hread⟩) rfl
        · simp [Buffer.remaining, hsome.2]
        · simp only [Buffer.Fits, List.length_append]
          omega
    · next conn hread =>
        have hnone := R.of_none hsize hread
        have hrest : b.remaining = b.buf := by
          simp [Buffer.remaining, hnone.1]
        have hrest' : Buffer.remaining (⟨b.buf, conn⟩ : Buffer R) = b.buf := by
          simp [Buffer.remaining, hnone.2]
        exact Loaded.ended rfl hrest' hrest (Int.lt_of_sub_pos hsize)
  · exact Loaded.full (by omega)

theorem load_later {bufsize : Int} {b b' : Buffer R}
    (h : load bufsize b = .ok true b') : R.Later b'.conn b.conn := by
  have hcases := load_cases bufsize b
  rw [h] at hcases
  rcases hcases with ⟨hlater, -, -⟩
  exact hlater

/-- `flush()` -/
def flush : EStateM Error (Buffer R) Bytes := fun b =>
  .ok b.buf { b with buf := [] }

/-- Load until an attempt to take something from the buffer succeeds: the loop
of `readmatch` and `readsize`. -/
def loadUntil {α : Type} (bufsize : Int) (attempt : Bytes → Option (α × Bytes))
    (b : Buffer R) : EStateM.Result Error (Buffer R) α :=
  match attempt b.buf with
  | some (s, rest) => .ok s { b with buf := rest }
  | none =>
      match _h : load bufsize b with
      | .ok true b' => loadUntil bufsize attempt b'
      | .ok false b' => .error .eof b'
      | .error e b' => .error e b'
termination_by b.conn
decreasing_by exact load_later _h

/-- The captures of `buf:match(pat .. '(.*)')`, for a pattern with one
capture. -/
def matchRest (pat : Pattern) (buf : Bytes) : Option (Bytes × Bytes) :=
  let rest : List Item := [.capStart, .star anyChar, .capStop]
  match Pattern.values { pat with items := pat.items ++ rest } buf with
  | some [s, rest] => some (s, rest)
  | _ => none

/-- `readmatch(pat)` -/
def readmatch (bufsize : Int) (pat : Pattern) :
    EStateM Error (Buffer R) Bytes := loadUntil bufsize (matchRest pat)

/-- `'^(.-)\r\n'` -/
def linePattern : Pattern where
  items := [.capStart, .lazy anyChar, .capStop, .one (chr '\r'), .one (chr '\n')]
  anchored := true

/-- `readline()` -/
def readline (bufsize : Int) : EStateM Error (Buffer R) Bytes :=
  readmatch bufsize linePattern

/-- The first `size` bytes of the buffer, if there are as many. -/
def takeSize (size : Int) (buf : Bytes) : Option (Bytes × Bytes) :=
  if size ≤ buf.length then some (sub buf 1 size, subFrom buf (size + 1))
  else none

/-- `readsize(size)` -/
def readsize (bufsize size : Int) : EStateM Error (Buffer R) Bytes :=
  loadUntil bufsize (takeSize size)

/-! ## Chunks -/

/-- The variables of the iterator that `readchunks` returns.  `done` is nil
until the last chunk, then true, or false where the stream ended too early. -/
structure Chunks where
  size : Option Int
  done : Option Bool := none

/-- One call of the iterator. -/
def nextChunk (bufsize flushsize : Int) (c : Chunks) (b : Buffer R) :
    EStateM.Result Error (Buffer R) (Option Bytes × Chunks) :=
  match _hdone : c.done with
  | some true => .ok (none, c) b
  | some false => .error .eof b
  | none =>
      match c.size.filter (· ≤ (b.buf.length : Int)) with
      | some size =>
          match readsize bufsize size b with
          | .ok s b' => .ok (some s, { c with done := some true }) b'
          | .error e b' => .error e b'
      | none =>
          if flushsize ≤ b.buf.length then
            .ok (some b.buf, { c with size := c.size.map (· - b.buf.length) })
              { b with buf := [] }
          else
            match _h : load bufsize b with
            | .ok true b' => nextChunk bufsize flushsize c b'
            | .ok false b' =>
                let c' := { c with done := some c.size.isNone }
                if 0 < b'.buf.length then
                  .ok (some b'.buf, c') { b' with buf := [] }
                else nextChunk bufsize flushsize c' b'
            | .error e b' => .error e b'
termination_by (if c.done = none then 1 else 0, b.conn)
decreasing_by
  · exact Prod.Lex.right _ (load_later _h)
  · exact Prod.Lex.left _ _ (by simp [_hdone])

/-- What a call of the iterator can do while it is not done, when `rest` is
still to be delivered. -/
inductive Chunked (bufsize flushsize : Int) (c : Chunks) (rest : Bytes) :
    EStateM.Result Error (Buffer R) (Option Bytes × Chunks) → Prop
  /-- the last bytes up to the size -/
  | last {n : Int} {s : Bytes} {b : Buffer R} : c.size = some n →
      (0 ≤ n → rest = s ++ b.remaining ∧ (s.length : Int) = n) →
      Chunked bufsize flushsize c rest
        (.ok (some s, { c with done := some true }) b)
  /-- a full buffer -/
  | flushed {s : Bytes} {b : Buffer R} : s ≠ [] → rest = s ++ b.remaining →
      (∀ n ∈ c.size, (s.length : Int) < n) →
      Chunked bufsize flushsize c rest
        (.ok (some s, { c with size := c.size.map (· - s.length) }) b)
  /-- the last bytes of the stream -/
  | ended {s : Bytes} {b : Buffer R} : s ≠ [] → rest = s ++ b.remaining →
      b.remaining = [] → (∀ n ∈ c.size, (s.length : Int) < n) →
      Chunked bufsize flushsize c rest
        (.ok (some s, { c with done := some c.size.isNone }) b)
  /-- nothing is left and nothing is missing -/
  | finished {c' : Chunks} {b : Buffer R} : c.size = none → rest = [] →
      b.remaining = [] →
      Chunked bufsize flushsize c rest (.ok (none, c') b)
  | eof {n : Int} {b : Buffer R} : c.size = some n → 0 < n → rest = [] →
      b.remaining = [] → Chunked bufsize flushsize c rest (.error .eof b)
  | overflow {b : Buffer R} : bufsize < flushsize →
      Chunked bufsize flushsize c rest (.error .bufferOverflow b)

section NextChunk

variable {bufsize flushsize : Int} {c : Chunks} {b : Buffer R}

theorem readsize_of_le {size : Int} (h : size ≤ b.buf.length) :
    readsize bufsize size b =
      .ok (sub b.buf 1 size) { b with buf := subFrom b.buf (size + 1) } := by
  rw [readsize, loadUntil.eq_def, takeSize, if_pos h]

theorem sub_append_subFrom {s : Bytes} {n : Int} (hn : 0 ≤ n)
    (hle : n ≤ s.length) :
    s = sub s 1 n ++ subFrom s (n + 1) ∧ ((sub s 1 n).length : Int) = n := by
  have hsub : sub s 1 n = s.take n.toNat := by
    simpa using sub_eq_take_drop s (i := 1) (by decide) hn
  have hfrom : subFrom s (n + 1) = s.drop n.toNat := by
    simpa using subFrom_drop s (i := n + 1) (by omega)
  rw [hsub, hfrom]
  refine ⟨(List.take_append_drop _ _).symm, ?_⟩
  rw [List.length_take]
  omega

/-- What a call of an iterator that is done returns. -/
theorem nextChunk_of_done {d : Bool} (hd : c.done = some d) :
    nextChunk bufsize flushsize c b =
      if d then .ok (none, c) b else .error .eof b := by
  rw [nextChunk.eq_def]
  split <;> simp_all

theorem nextChunk_cases (hf : 0 < flushsize) (hdone : c.done = none) :
    Chunked bufsize flushsize c b.remaining
      (nextChunk bufsize flushsize c b) := by
  induction hrest : b.conn using WellFounded.induction R.finite.transGen generalizing b with
  | _ conn ih =>
  subst hrest
  rw [nextChunk.eq_def]
  split
  · simp_all
  · simp_all
  split
  · next n hn =>
      obtain ⟨hsize, hle⟩ : c.size = some n ∧ n ≤ b.buf.length := by
        simpa [Option.filter_eq_some_iff] using hn
      rw [readsize_of_le hle]
      apply Chunked.last hsize
      intro hpos
      have hsplit := sub_append_subFrom hpos hle
      refine ⟨?_, hsplit.2⟩
      rw [Buffer.remaining, Buffer.remaining, ← List.append_assoc, ← hsplit.1]
  · next hnone =>
      have hlt : ∀ n ∈ c.size, (b.buf.length : Int) < n := by
        intro n hn
        by_contra hle
        have hsome : c.size.filter (· ≤ (b.buf.length : Int)) = some n := by
          simpa [Option.filter_eq_some_iff] using ⟨hn, not_lt.mp hle⟩
        rw [hnone] at hsome
        cases hsome
      have hrest : b.remaining =
          b.buf ++ Buffer.remaining (⟨[], b.conn⟩ : Buffer R) := rfl
      split_ifs with hflush
      · refine Chunked.flushed ?_ hrest hlt
        intro hnil
        rw [hnil] at hflush
        exact absurd hflush (not_le.mpr hf)
      · have hload := load_cases bufsize b
        split
        · next b' hb' =>
            rw [hb'] at hload
            rcases hload with ⟨hlater, -, hsame, -⟩
            rw [← hsame]
            exact ih _ hlater rfl
        · next b' hb' =>
            rw [hb'] at hload
            rcases hload with _ | ⟨hbuf, hleft, hall, -⟩
            have hend : Buffer.remaining (⟨[], b'.conn⟩ : Buffer R) = [] := by
              simpa [Buffer.remaining, hbuf] using hleft
            rw [hall]
            split_ifs with hpos
            · refine Chunked.ended (List.ne_nil_of_length_pos hpos) ?_ hend ?_
              · rw [hend, hbuf, List.append_nil]
              · rwa [hbuf]
            · have hnil : b.buf = [] := by
                simpa [hbuf] using hpos
              have hleft' : b'.remaining = [] := hleft.trans hnil
              rw [nextChunk_of_done rfl, hnil]
              cases hsize : c.size with
              | none => exact Chunked.finished hsize rfl hleft'
              | some n =>
                  have hn := hlt n hsize
                  rw [hnil] at hn
                  exact Chunked.eof hsize hn rfl hleft'
        · next e b' hb' =>
            rw [hb'] at hload
            rcases hload with _ | _ | hfull
            exact Chunked.overflow (hfull.trans_lt (not_le.mp hflush))

theorem nextChunk_less (hf : 0 < flushsize) {c' : Chunks} {b' : Buffer R}
    {s : Bytes}
    (h : nextChunk bufsize flushsize c b = .ok (some s, c') b') :
    Prod.Lex (· < ·) (· < ·)
      (if c'.done = none then 1 else 0, b'.remaining.length)
      (if c.done = none then 1 else 0, b.remaining.length) := by
  cases hdone : c.done with
  | some d =>
      rw [nextChunk_of_done hdone] at h
      split_ifs at h
      cases h
  | none =>
      have hcases : Chunked bufsize flushsize c b.remaining
          (nextChunk bufsize flushsize c b) := nextChunk_cases hf hdone
      rw [h] at hcases
      rcases hcases with _ | ⟨hne, hrest, -⟩
      · exact Prod.Lex.left _ _ (by simp)
      · rw [hrest, List.length_append, if_pos hdone, if_pos rfl]
        apply Prod.Lex.right
        have hpos := List.length_pos_of_ne_nil hne
        omega
      · exact Prod.Lex.left _ _ (by simp)

end NextChunk

/-- The chunks of `for s in next_chunk do`, and how the loop ends. -/
def collect (bufsize flushsize : Int) (hf : 0 < flushsize) (c : Chunks)
    (b : Buffer R) : List Bytes × EStateM.Result Error (Buffer R) Unit :=
  match _h : nextChunk bufsize flushsize c b with
  | .ok (none, _) b' => ([], .ok () b')
  | .ok (some s, c') b' =>
      let r := collect bufsize flushsize hf c' b'
      (s :: r.1, r.2)
  | .error e b' => ([], .error e b')
termination_by (if c.done = none then 1 else 0, b.remaining.length)
decreasing_by exact nextChunk_less hf _h

section Collect

variable {bufsize flushsize : Int} {c c' : Chunks} {b b' : Buffer R}

theorem collect_of_none (hf : 0 < flushsize)
    (h : nextChunk bufsize flushsize c b = .ok (none, c') b') :
    collect bufsize flushsize hf c b = ([], .ok () b') := by
  rw [collect.eq_def]
  split <;> simp_all

theorem collect_of_some (hf : 0 < flushsize) {s : Bytes}
    (h : nextChunk bufsize flushsize c b = .ok (some s, c') b') :
    collect bufsize flushsize hf c b =
      (s :: (collect bufsize flushsize hf c' b').1,
        (collect bufsize flushsize hf c' b').2) := by
  rw [collect.eq_def]
  split <;> simp_all

theorem collect_of_error (hf : 0 < flushsize) {e : Error}
    (h : nextChunk bufsize flushsize c b = .error e b') :
    collect bufsize flushsize hf c b = ([], .error e b') := by
  rw [collect.eq_def]
  split <;> simp_all

end Collect

/-- `for s in readchunks(size, flushsize) do` -/
def readchunks (bufsize : Int) (size flushsize : Option Int) (b : Buffer R) :
    List Bytes × EStateM.Result Error (Buffer R) Unit :=
  let flushsize := flushsize.getD bufsize
  if hf : 0 < flushsize then collect bufsize flushsize hf ⟨size, none⟩ b
  else ([], .error .invalidFlushsize b)

/-- `for s in readall(flushsize) do` -/
def readall (bufsize : Int) (flushsize : Option Int) (b : Buffer R) :
    List Bytes × EStateM.Result Error (Buffer R) Unit :=
  readchunks bufsize none flushsize b

/-! ## Sequences of calls -/

/-- The calls on a readbuffer.  An iterator is consumed to its end or error. -/
inductive Op
  | readline
  | readsize (size : Int)
  | readchunks (size : Int) (flushsize : Option Int)
  | readall (flushsize : Option Int)
  deriving DecidableEq, Repr

/-- What a call delivers, chunks put together, and the error that it raises. -/
abbrev Output := Bytes × Option Error

/-- A value or an error, and what is left. -/
def valueOutput : EStateM.Result Error (Buffer R) Bytes → Output × Buffer R
  | .ok s b => ((s, none), b)
  | .error e b => (([], some e), b)

/-- Chunks up to the end or an error, and what is left. -/
def chunksOutput (r : List Bytes × EStateM.Result Error (Buffer R) Unit) :
    Output × Buffer R :=
  match r.2 with
  | .ok _ b => ((r.1.flatten, none), b)
  | .error e b => ((r.1.flatten, some e), b)

/-- Perform a call. -/
def perform (bufsize : Int) (b : Buffer R) : Op → Output × Buffer R
  | .readline => valueOutput (readline bufsize b)
  | .readsize size => valueOutput (readsize bufsize size b)
  | .readchunks size flushsize =>
      chunksOutput (readchunks bufsize (some size) flushsize b)
  | .readall flushsize => chunksOutput (readall bufsize flushsize b)

/-- The buffer after a call. -/
def step (bufsize : Int) (b : Buffer R) (op : Op) : Buffer R :=
  (perform bufsize b op).2

/-- What a call delivers. -/
def output (bufsize : Int) (b : Buffer R) (op : Op) : Output :=
  (perform bufsize b op).1

end Readbuffer

end LuaAttic.Http
