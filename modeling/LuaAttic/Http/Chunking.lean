import LuaAttic.Support.Run
import LuaAttic.Http.Readbuffer

/-!
# A readbuffer does not depend on how the stream is cut

Every call delivers what the bytes still to be delivered determine: a line or a
block that lies within the first `bufsize` of them, or all chunks up to a size.
So a readbuffer refines a machine whose state is nothing but these bytes, and
two of them over the same stream answer every sequence of calls alike.
-/

namespace LuaAttic.Http.Readbuffer

open LuaAttic.Lua LuaAttic.Support

variable {R : Reader}

/-! ## Lines -/

/-- The bytes up to the first line terminator, and the bytes after it. -/
def splitLine : Bytes → Option (Bytes × Bytes)
  | [] => none
  | b :: s =>
      if b = 0x0D ∧ s.head? = some 0x0A then some ([], s.tail)
      else (splitLine s).map fun r => (b :: r.1, r.2)

/-- The items of the pattern of `readline` after its lazy run. -/
def lineEnd : List Item :=
  [.capStop, .one (chr '\r'), .one (chr '\n'), .capStart, .star anyChar,
    .capStop]

theorem matchItems_lineEnd (pre rest : Bytes) :
    matchItems lineEnd [.opened (pre ++ 0x0D :: 0x0A :: rest)]
      (0x0D :: 0x0A :: rest) = some ([], [.closed pre, .closed rest]) := by
  have hclose : closeLast (0x0D :: 0x0A :: rest)
      [.opened (pre ++ 0x0D :: 0x0A :: rest)] = [.closed pre] := by
    simp [closeLast]
  simp only [lineEnd, matchItems, hclose]
  rw [if_pos (by decide), if_pos (by decide), maxExpand_of_isSome]
  · simp [closeLast]
  · rfl

theorem matchItems_lineEnd_none {caps : List Capture} {b : UInt8} {s : Bytes}
    (h : ¬ (b = 0x0D ∧ s.head? = some 0x0A)) :
    matchItems lineEnd caps (b :: s) = none := by
  simp only [lineEnd, matchItems]
  by_cases hb : b = 0x0D
  · rw [hb, if_pos (by decide)]
    rcases s with _ | ⟨d, s⟩
    · rfl
    · have hd : d ≠ 0x0A := fun hd => h ⟨hb, by rw [hd, List.head?_cons]⟩
      exact if_neg fun hchr => hd (beq_iff_eq.mp hchr)
  · exact if_neg fun hchr => hb (beq_iff_eq.mp hchr)

/-- Where the pattern of `readline` stops, and what it captures. -/
theorem minExpand_lineEnd (pre s : Bytes) :
    minExpand anyChar (matchItems lineEnd [.opened (pre ++ s)]) s =
      (splitLine s).map fun r => ([], [.closed (pre ++ r.1), .closed r.2]) := by
  induction s generalizing pre with
  | nil => rfl
  | cons b s ih =>
      rw [minExpand, splitLine, anyChar_apply, if_pos rfl]
      by_cases hb : b = 0x0D ∧ s.head? = some 0x0A
      · rw [if_pos hb]
        rcases s with _ | ⟨d, s⟩
        · cases hb.2
        · obtain ⟨rfl, rfl⟩ : b = 0x0D ∧ d = 0x0A := by simpa using hb
          rw [matchItems_lineEnd]
          simp
      · rw [if_neg hb, matchItems_lineEnd_none hb, Option.none_or]
        have hwhole : pre ++ b :: s = (pre ++ [b]) ++ s := by simp
        rw [hwhole, ih, Option.map_map]
        simp [Function.comp_def]

/-- A line is what is captured of the buffer. -/
theorem matchRest_linePattern (s : Bytes) :
    matchRest linePattern s = splitLine s := by
  have hhere : matchItems (.capStart :: .lazy anyChar :: lineEnd) [] s =
      (splitLine s).map fun r => ([], [.closed r.1, .closed r.2]) :=
    minExpand_lineEnd [] s
  have hitems : linePattern.items ++ [.capStart, .star anyChar, .capStop] =
      .capStart :: .lazy anyChar :: lineEnd := rfl
  simp only [matchRest, Pattern.values, hitems]
  rw [Pattern.find.eq_def, Pattern.matchHere, hhere]
  cases splitLine s <;> rfl

theorem splitLine_eq_some {s line rest : Bytes}
    (h : splitLine s = some (line, rest)) :
    s = line ++ 0x0D :: 0x0A :: rest := by
  induction s generalizing line with
  | nil => cases h
  | cons b s ih =>
      rw [splitLine] at h
      split_ifs at h with hb
      · rcases hb with ⟨rfl, hhead⟩
        cases h
        rw [List.nil_append, List.cons.injEq]
        exact ⟨rfl, (List.cons_head?_tail hhead).symm⟩
      · rcases Option.map_eq_some_iff.mp h with ⟨⟨l, r⟩, hs, heq⟩
        cases heq
        rw [ih hs, List.cons_append]

/-- A line that is found stays the first one when more is read. -/
theorem splitLine_append {s line rest : Bytes}
    (h : splitLine s = some (line, rest)) (t : Bytes) :
    splitLine (s ++ t) = some (line, rest ++ t) := by
  induction s generalizing line with
  | nil => cases h
  | cons b s ih =>
      rw [splitLine] at h
      rw [List.cons_append, splitLine]
      by_cases hb : b = 0x0D ∧ s.head? = some 0x0A
      · have hhead : (s ++ t).head? = some 0x0A := by
          rw [List.head?_append, hb.2, Option.some_or]
        rw [if_pos hb] at h
        cases h
        rw [if_pos ⟨hb.1, hhead⟩, ← List.cons_head?_tail hb.2]
        rfl
      · rw [if_neg hb] at h
        rcases Option.map_eq_some_iff.mp h with ⟨⟨l, r⟩, hs, heq⟩
        cases heq
        have hne : s ≠ [] := by
          rintro rfl
          cases hs
        have hb' : ¬ (b = 0x0D ∧ (s ++ t).head? = some 0x0A) := by
          rwa [List.head?_append_of_ne_nil _ hne]
        rw [if_neg hb', ih hs]
        rfl

/-! ## Attempts on the buffer -/

/-- An attempt that succeeds leaves the end of the buffer, and succeeds alike
when the buffer is longer. -/
structure Stable {α : Type} (attempt : Bytes → Option (α × Bytes)) : Prop where
  shorter : ∀ {s rest : Bytes} {a : α}, attempt s = some (a, rest) →
    rest.length ≤ s.length
  append : ∀ {s rest : Bytes} {a : α}, attempt s = some (a, rest) →
    ∀ t, attempt (s ++ t) = some (a, rest ++ t)

theorem stable_splitLine : Stable splitLine where
  shorter h := by
    rw [splitLine_eq_some h]
    simp only [List.length_append, List.length_cons]
    omega
  append := splitLine_append

theorem stable_takeSize {size : Int} (hsize : 0 ≤ size) :
    Stable (takeSize size) where
  shorter {s rest a} h := by
    rw [takeSize] at h
    split_ifs at h
    cases h
    rw [subFrom_drop s (by omega)]
    exact (List.drop_sublist _ s).length_le
  append {s rest a} h t := by
    rw [takeSize] at h ⊢
    split_ifs at h with hle
    cases h
    have hlen : size ≤ ((s ++ t).length : Int) := by
      rw [List.length_append]
      omega
    have htake : size.toNat ≤ s.length := by omega
    rw [if_pos hlen, sub_eq_take_drop _ (by decide) hsize,
      sub_eq_take_drop _ (by decide) hsize, subFrom_drop _ (by omega),
      subFrom_drop _ (by omega)]
    simp only [Int.sub_self, Int.add_sub_cancel, Int.toNat_zero, List.drop_zero]
    rw [List.take_append_of_le_length htake, List.drop_append_of_le_length htake]

/-- What an attempt makes of a stream through a buffer of `bufsize` bytes. -/
def serveUntil {α : Type} (bufsize : Int)
    (attempt : Bytes → Option (α × Bytes)) (stream : Bytes) :
    Except Error α × Bytes :=
  match attempt (stream.take bufsize.toNat) with
  | some (a, rest) => (.ok a, rest ++ stream.drop bufsize.toNat)
  | none =>
      (.error (if bufsize ≤ stream.length then .bufferOverflow else .eof),
        stream)

/-- The value or the error of a call, and what remains. -/
def result {α : Type} : EStateM.Result Error (Buffer R) α →
    Except Error α × Bytes
  | .ok a b => (.ok a, b.remaining)
  | .error e b => (.error e, b.remaining)

/-- The buffer that a call leaves. -/
def left {α : Type} : EStateM.Result Error (Buffer R) α → Buffer R
  | .ok _ b => b
  | .error _ b => b

section LoadUntil

variable {α : Type} {bufsize : Int} {attempt : Bytes → Option (α × Bytes)}

theorem serveUntil_of_attempt (hstable : Stable attempt) {b : Buffer R}
    (hfits : b.Fits bufsize) {a : α} {rest : Bytes}
    (h : attempt b.buf = some (a, rest)) :
    serveUntil bufsize attempt b.remaining =
      (.ok a, rest ++ R.rest b.conn) := by
  have htake : b.remaining.take bufsize.toNat =
      b.buf ++ (R.rest b.conn).take (bufsize.toNat - b.buf.length) := by
    rw [Buffer.remaining, List.take_append, List.take_of_length_le hfits]
  have hdrop : b.remaining.drop bufsize.toNat =
      (R.rest b.conn).drop (bufsize.toNat - b.buf.length) := by
    rw [Buffer.remaining, List.drop_append, List.drop_of_length_le hfits,
      List.nil_append]
  rw [serveUntil, htake, hstable.append h, hdrop]
  simp only [List.append_assoc, List.take_append_drop]

/-- The loop serves the stream as if it saw its first `bufsize` bytes at
once. -/
theorem result_loadUntil (hstable : Stable attempt) {b : Buffer R}
    (hfits : b.Fits bufsize) :
    result (loadUntil bufsize attempt b) =
        serveUntil bufsize attempt b.remaining ∧
      (left (loadUntil bufsize attempt b)).Fits bufsize := by
  induction hconn : b.conn using WellFounded.induction R.finite.transGen
    generalizing b with
  | _ conn ih =>
  subst hconn
  rw [loadUntil.eq_def]
  split
  · next a rest hattempt =>
      refine ⟨(serveUntil_of_attempt hstable hfits hattempt).symm, ?_⟩
      exact (hstable.shorter hattempt).trans hfits
  · next hattempt =>
      have hload := load_cases bufsize b
      split
      · next b' hb' =>
          rw [hb'] at hload
          rcases hload with ⟨hlater, -, hsame, hfits'⟩
          rw [← hsame]
          exact ih _ hlater hfits' rfl
      · next b' hb' =>
          rw [hb'] at hload
          rcases hload with _ | ⟨hbuf, hleft, hall, hroom⟩
          have htake : b.buf.take bufsize.toNat = b.buf :=
            List.take_of_length_le hfits
          refine ⟨?_, ?_⟩
          · rw [result, hleft, hall, serveUntil, htake, hattempt,
              if_neg (not_le.mpr hroom)]
          · rwa [left, Buffer.Fits, hbuf]
      · next e b' hb' =>
          rw [hb'] at hload
          rcases hload with _ | _ | hfull
          have hlen : b.buf.length = bufsize.toNat := by
            have hle : b.buf.length ≤ bufsize.toNat := hfits
            omega
          have htake : b.remaining.take bufsize.toNat = b.buf := by
            rw [Buffer.remaining, ← hlen, List.take_left']
            rfl
          have hlong : bufsize ≤ b.remaining.length := by
            rw [Buffer.remaining, List.length_append]
            omega
          exact ⟨by rw [result, serveUntil, htake, hattempt, if_pos hlong],
            hfits⟩

end LoadUntil

/-! ## Chunks -/

section Chunks

variable {bufsize flushsize : Int}

theorem length_subFrom_le (s : Bytes) (i : Int) :
    (subFrom s i).length ≤ s.length :=
  ((List.drop_sublist _ _).trans (List.take_sublist _ _)).length_le

theorem left_nextChunk_fits {c : Chunks} {b : Buffer R}
    (hfits : b.Fits bufsize) :
    (left (nextChunk bufsize flushsize c b)).Fits bufsize := by
  induction hconn : b.conn using WellFounded.induction R.finite.transGen
    generalizing b with
  | _ conn ih =>
  subst hconn
  have hempty (conn : R.State) : Buffer.Fits bufsize (⟨[], conn⟩ : Buffer R) :=
    Nat.zero_le _
  rw [nextChunk.eq_def]
  split
  · exact hfits
  · exact hfits
  split
  · next n hn =>
      obtain ⟨-, hle⟩ : c.size = some n ∧ n ≤ b.buf.length := by
        simpa [Option.filter_eq_some_iff] using hn
      rw [readsize_of_le hle]
      exact (length_subFrom_le _ _).trans hfits
  · split_ifs
    · exact hempty b.conn
    · have hload := load_cases bufsize b
      split
      · next b' hb' =>
          rw [hb'] at hload
          rcases hload with ⟨hlater, -, -, hfits'⟩
          exact ih _ hlater hfits' rfl
      · next b' hb' =>
          rw [hb'] at hload
          rcases hload with _ | ⟨hbuf, -, -, -⟩
          have hfits' : b'.Fits bufsize := by
            rwa [Buffer.Fits, hbuf]
          split_ifs
          · exact hempty b'.conn
          · rw [nextChunk_of_done rfl]
            split_ifs
            · exact hfits'
            · exact hfits'
      · next e b' hb' =>
          rw [hb'] at hload
          rcases hload with _ | _ | _
          exact hfits

/-- What all chunks up to a size, or to the end of the stream, come to. -/
def serveChunks (size : Option Int) (stream : Bytes) : Output × Bytes :=
  match size with
  | none => ((stream, none), [])
  | some n =>
      if n ≤ stream.length then
        ((stream.take n.toNat, none), stream.drop n.toNat)
      else ((stream, some .eof), [])

/-- A chunk that is delivered comes before what the others come to. -/
theorem serveChunks_append {size : Option Int} {s t : Bytes}
    (hsize : ∀ n ∈ size, (s.length : Int) < n) :
    serveChunks size (s ++ t) =
      ((s ++ (serveChunks (size.map (· - s.length)) t).1.1,
          (serveChunks (size.map (· - s.length)) t).1.2),
        (serveChunks (size.map (· - s.length)) t).2) := by
  cases size with
  | none => rfl
  | some n =>
      have hlt : (s.length : Int) < n := hsize n rfl
      have hiff : n ≤ ((s ++ t).length : Int) ↔ n - s.length ≤ t.length := by
        rw [List.length_append]
        omega
      have hnat : n.toNat = s.length + (n - s.length).toNat := by omega
      simp only [serveChunks, Option.map_some, hiff]
      split_ifs
      · rw [hnat, List.take_length_add_append, List.drop_length_add_append]
      · rfl

theorem collect_of_done (hf : 0 < flushsize) {c : Chunks} {d : Bool}
    (hd : c.done = some d) (b : Buffer R) :
    collect bufsize flushsize hf c b =
      ([], if d then .ok () b else .error .eof b) := by
  have hnext : nextChunk bufsize flushsize c b = _ := nextChunk_of_done hd
  cases d with
  | false => exact collect_of_error hf hnext
  | true => exact collect_of_none hf hnext

theorem chunksOutput_cons (s : Bytes)
    (r : List Bytes × EStateM.Result Error (Buffer R) Unit) :
    chunksOutput (s :: r.1, r.2) =
      ((s ++ (chunksOutput r).1.1, (chunksOutput r).1.2),
        (chunksOutput r).2) := by
  rcases r with ⟨l, r⟩
  cases r <;> rfl

/-- The chunks are cut anywhere, but put together they are the stream up to
the size. -/
theorem chunksOutput_collect (hf : 0 < flushsize) (hle : flushsize ≤ bufsize)
    {c : Chunks} {b : Buffer R} (hdone : c.done = none)
    (hsize : ∀ n ∈ c.size, 0 ≤ n) :
    (chunksOutput (collect bufsize flushsize hf c b)).1 =
        (serveChunks c.size b.remaining).1 ∧
      (chunksOutput (collect bufsize flushsize hf c b)).2.remaining =
        (serveChunks c.size b.remaining).2 := by
  induction hlen : b.remaining.length using Nat.strong_induction_on
    generalizing c b with
  | _ len ih =>
  have hcases : Chunked bufsize flushsize c b.remaining
      (nextChunk bufsize flushsize c b) := nextChunk_cases hf hdone
  rw [collect.eq_def]
  split
  · next c' b' h =>
      rw [h] at hcases
      rcases hcases with _ | _ | _ | ⟨hnone, hnil, hleft⟩
      rw [hnone, hnil]
      exact ⟨rfl, hleft⟩
  · next s c' b' h =>
      rw [h] at hcases
      simp only [chunksOutput_cons]
      rcases hcases with ⟨hn, hlast⟩ | ⟨hne, hrest, hlt⟩ | ⟨hne, hrest, hleft, hlt⟩
      · next n =>
          obtain ⟨hrest, hlength⟩ := hlast (hsize n hn)
          have hnat : n.toNat = s.length := by omega
          have hlong : n ≤ ((s ++ b'.remaining).length : Int) := by
            rw [List.length_append]
            omega
          rw [collect_of_done hf rfl, hrest, hn, serveChunks, if_pos hlong,
            hnat, List.take_left, List.drop_left]
          exact ⟨by rw [if_pos rfl, chunksOutput, List.flatten_nil,
            List.append_nil], rfl⟩
      · have hpos := List.length_pos_of_ne_nil hne
        have hless : b'.remaining.length < len := by
          rw [← hlen, hrest, List.length_append]
          omega
        have hsize' : ∀ n ∈ c.size.map (· - (s.length : Int)), 0 ≤ n := by
          intro n hn
          rcases Option.mem_map.mp hn with ⟨m, hm, rfl⟩
          exact Int.sub_nonneg.mpr (hlt m hm).le
        have hih := ih _ hless (b := b')
          (c := { c with size := c.size.map (· - (s.length : Int)) })
          hdone hsize' rfl
        rw [hrest, serveChunks_append hlt, hih.1, hih.2]
        exact ⟨rfl, rfl⟩
      · rw [collect_of_done hf rfl, hrest, hleft, List.append_nil]
        cases hn : c.size with
        | none => exact ⟨by simp [chunksOutput, serveChunks], hleft⟩
        | some n =>
            have hnot : ¬ n ≤ (s.length : Int) := not_le.mpr (hlt n hn)
            simp only [serveChunks, if_neg hnot]
            exact ⟨by simp [chunksOutput], hleft⟩
  · next e b' h =>
      rw [h] at hcases
      rcases hcases with _ | _ | _ | _ | ⟨hn, hpos, hnil, hleft⟩ | hover
      · next n =>
          have hnot : ¬ n ≤ (([] : Bytes).length : Int) := not_le.mpr hpos
          rw [hnil, hn, serveChunks, if_neg hnot]
          exact ⟨rfl, hleft⟩
      · exact absurd hle (not_le.mpr hover)

/-- A loop over chunks leaves a buffer that holds no more than it may. -/
theorem chunksOutput_collect_fits (hf : 0 < flushsize) {c : Chunks}
    {b : Buffer R} (hfits : b.Fits bufsize) :
    (chunksOutput (collect bufsize flushsize hf c b)).2.Fits bufsize := by
  induction c, b using collect.induct bufsize flushsize hf with
  | case1 c b c' b' h =>
      have hleft : (left (nextChunk bufsize flushsize c b)).Fits bufsize :=
        left_nextChunk_fits hfits
      rw [h] at hleft
      rwa [collect_of_none hf h]
  | case2 c b s c' b' h ih =>
      have hleft : (left (nextChunk bufsize flushsize c b)).Fits bufsize :=
        left_nextChunk_fits hfits
      rw [h] at hleft
      rw [collect_of_some hf h, chunksOutput_cons]
      exact ih hleft
  | case3 c b e b' h =>
      have hleft : (left (nextChunk bufsize flushsize c b)).Fits bufsize :=
        left_nextChunk_fits hfits
      rw [h] at hleft
      rwa [collect_of_error hf h]

end Chunks

/-! ## Calls -/

/-- A call on the bytes still to be delivered: what it delivers, and what is
then left. -/
def serve (bufsize : Int) (stream : Bytes) : Op → Output × Bytes
  | .readline => value (serveUntil bufsize splitLine stream)
  | .readsize size => value (serveUntil bufsize (takeSize size) stream)
  | .readchunks size _ => serveChunks (some size) stream
  | .readall _ => serveChunks none stream
where
  value : Except Error Bytes × Bytes → Output × Bytes
    | (.ok s, rest) => ((s, none), rest)
    | (.error e, rest) => (([], some e), rest)

/-- The calls that are allowed: sizes are not negative, and chunks are flushed
before the buffer is full. -/
def Op.Allowed (bufsize : Int) : Op → Prop
  | .readline => True
  | .readsize size => 0 ≤ size
  | .readchunks size flushsize =>
      0 ≤ size ∧ 0 < flushsize.getD bufsize ∧ flushsize.getD bufsize ≤ bufsize
  | .readall flushsize =>
      0 < flushsize.getD bufsize ∧ flushsize.getD bufsize ≤ bufsize

section Perform

variable {bufsize : Int} {b : Buffer R}

theorem value_result (r : EStateM.Result Error (Buffer R) Bytes) :
    serve.value (result r) =
      ((valueOutput r).1, (valueOutput r).2.remaining) := by
  cases r <;> rfl

theorem left_eq (r : EStateM.Result Error (Buffer R) Bytes) :
    (valueOutput r).2 = left r := by
  cases r <;> rfl

/-- A call of the code does what the call does to the bytes still to be
delivered. -/
theorem perform_spec (hfits : b.Fits bufsize) {op : Op}
    (hop : op.Allowed bufsize) :
    serve bufsize b.remaining op =
        ((perform bufsize b op).1, (perform bufsize b op).2.remaining) ∧
      (perform bufsize b op).2.Fits bufsize := by
  cases op with
  | readline =>
      have hattempt : matchRest linePattern = splitLine :=
        funext matchRest_linePattern
      have hspec := result_loadUntil stable_splitLine hfits
      rw [← hattempt] at hspec
      simp only [serve, perform, readline, readmatch, ← hattempt, ← hspec.1,
        value_result, left_eq]
      exact ⟨trivial, hspec.2⟩
  | readsize size =>
      have hspec := result_loadUntil (stable_takeSize hop) hfits
      simp only [serve, perform, readsize, ← hspec.1, value_result, left_eq]
      exact ⟨trivial, hspec.2⟩
  | readchunks size flushsize =>
      rcases hop with ⟨hsize, hf, hle⟩
      have hspec := chunksOutput_collect hf hle (c := ⟨some size, none⟩)
        (b := b) rfl (by simpa using hsize)
      simp only [serve, perform, readchunks, dif_pos hf]
      exact ⟨Prod.ext hspec.1.symm hspec.2.symm,
        chunksOutput_collect_fits hf hfits⟩
  | readall flushsize =>
      rcases hop with ⟨hf, hle⟩
      have hspec := chunksOutput_collect hf hle (c := ⟨none, none⟩)
        (b := b) rfl (by simp)
      simp only [serve, perform, readall, readchunks, dif_pos hf]
      exact ⟨Prod.ext hspec.1.symm hspec.2.symm,
        chunksOutput_collect_fits hf hfits⟩

end Perform

/-! ## Runs -/

/-- Every run of allowed calls follows the run over the stream itself. -/
theorem follows_stream {bufsize : Int} (c : R.State) {ops : List Op}
    (hops : ∀ op ∈ ops, op.Allowed bufsize) :
    Follows (step bufsize) (output bufsize)
      (fun stream op => (serve bufsize stream op).2)
      (fun stream op => (serve bufsize stream op).1)
      Buffer.remaining id ops (new c : Buffer R) := by
  have hstep : ∀ (b : Buffer R) (op : Op), b.Fits bufsize →
      op.Allowed bufsize → (step bufsize b op).Fits bufsize :=
    fun b op hfits hop => (perform_spec hfits hop).2
  have hgood : ∀ (b : Buffer R) (op : Op), b.Fits bufsize →
      op.Allowed bufsize →
      Refines (step bufsize) (output bufsize)
        (fun stream op => (serve bufsize stream op).2)
        (fun stream op => (serve bufsize stream op).1)
        Buffer.remaining id b op := by
    intro b op hfits hop
    have hspec := (perform_spec hfits hop).1
    exact ⟨(congrArg Prod.snd hspec).symm, (congrArg Prod.fst hspec).symm⟩
  have hnew : (new c : Buffer R).Fits bufsize := Nat.zero_le _
  exact allAllowed_refines_iff.mp
    (AllAllowed.of_invariant hstep hgood hnew (allAllowed_of_forall hops _)) ops
    (List.prefix_refl ops)

/-- The bytes that a call takes off the stream: a line ends in a terminator
that is not part of it. -/
def consumed : Op → Output → Bytes
  | .readline, (line, none) => line ++ lit "\r\n"
  | _, (s, _) => s

theorem takeSize_eq_some {size : Int} (hsize : 0 ≤ size) {s a rest : Bytes}
    (h : takeSize size s = some (a, rest)) : s = a ++ rest := by
  rw [takeSize] at h
  split_ifs at h with hle
  cases h
  exact (sub_append_subFrom hsize hle).1

/-- What a call takes off the stream comes before what it leaves. -/
theorem consumed_append {bufsize : Int} (stream : Bytes) {op : Op}
    (hop : op.Allowed bufsize) :
    consumed op (serve bufsize stream op).1 ++ (serve bufsize stream op).2 =
      stream := by
  cases op with
  | readline =>
      rw [serve, serveUntil]
      cases h : splitLine (stream.take bufsize.toNat) with
      | none => rfl
      | some r =>
          rcases r with ⟨line, rest⟩
          have hline : line ++ lit "\r\n" ++ rest =
              stream.take bufsize.toNat := by
            rw [splitLine_eq_some h, List.append_assoc]
            rfl
          simp only [serve.value, consumed]
          rw [← List.append_assoc, hline, List.take_append_drop]
  | readsize size =>
      rw [serve, serveUntil]
      cases h : takeSize size (stream.take bufsize.toNat) with
      | none => rfl
      | some r =>
          rcases r with ⟨a, rest⟩
          have hsplit := takeSize_eq_some hop h
          simp only [serve.value, consumed]
          rw [← List.append_assoc, ← hsplit, List.take_append_drop]
  | readchunks size flushsize =>
      rw [serve, serveChunks]
      split_ifs
      · exact List.take_append_drop _ _
      · exact List.append_nil stream
  | readall flushsize => exact List.append_nil stream

/-- The bytes that the calls of a run take off the stream. -/
def consumedAll (ops : List Op) (outs : List Output) : Bytes :=
  (List.zipWith consumed ops outs).flatten

theorem consumedAll_append {bufsize : Int} (stream : Bytes) {ops : List Op}
    (hops : ∀ op ∈ ops, op.Allowed bufsize) :
    consumedAll ops
        (outputs (fun stream op => (serve bufsize stream op).2)
          (fun stream op => (serve bufsize stream op).1) ops stream) ++
      run (fun stream op => (serve bufsize stream op).2) ops stream =
        stream := by
  induction ops generalizing stream with
  | nil => rfl
  | cons op ops ih =>
      have hrest := ih (serve bufsize stream op).2
        fun op' hop' => hops op' (List.mem_cons_of_mem op hop')
      rw [consumedAll] at hrest ⊢
      rw [run_cons, outputs, List.zipWith_cons_cons, List.flatten_cons,
        List.append_assoc, hrest]
      exact consumed_append stream (hops op List.mem_cons_self)

/-- What the calls of a run deliver. -/
def answers (bufsize : Int) (c : R.State) (ops : List Op) : List Output :=
  outputs (step bufsize) (output bufsize) ops (new c : Buffer R)

/-- What a run leaves to be delivered. -/
def leftover (bufsize : Int) (c : R.State) (ops : List Op) : Bytes :=
  (run (step bufsize) ops (new c : Buffer R)).remaining

/-- A run takes the bytes that it delivers off the stream, in their order. -/
theorem consumedAll_answers {bufsize : Int} (c : R.State) {ops : List Op}
    (hops : ∀ op ∈ ops, op.Allowed bufsize) :
    consumedAll ops (answers bufsize c ops) ++ leftover bufsize c ops =
      R.rest c := by
  have hfollows := follows_stream c hops
  rw [Follows, List.map_id] at hfollows
  rw [answers, leftover, hfollows.1, hfollows.2]
  exact consumedAll_append _ hops

/-! ## A stream cut into given pieces -/

/-- Read up to as many bytes as the next number says, which is none for the
empty string; all that is asked for once the numbers have run out. -/
def cutRead (c : Bytes × List ℕ) (size : Int) :
    Option Bytes × (Bytes × List ℕ) :=
  match c with
  | ([], 0 :: cuts) => (some [], ([], cuts))
  | ([], cuts) => (none, ([], cuts))
  | (b :: s, cuts) =>
      let n := min (cuts.headD size.toNat) size.toNat
      (some ((b :: s).take n), ((b :: s).drop n, cuts.tail))

theorem cutRead_some {c c' : Bytes × List ℕ} {size : Int} {p : Bytes}
    (hsize : 0 < size) (h : cutRead c size = (some p, c')) :
    (p.length : Int) ≤ size ∧ c.1 = p ++ c'.1 ∧
      c'.1.length + c'.2.length < c.1.length + c.2.length := by
  rw [cutRead.eq_def] at h
  split at h
  · cases h
    simp [hsize.le]
  · cases h
  · next b s cuts =>
      cases h
      have hn : min (cuts.headD size.toNat) size.toNat ≤ size.toNat :=
        min_le_right _ _
      refine ⟨?_, (List.take_append_drop _ _).symm, ?_⟩
      · rw [List.length_take]
        omega
      · rcases cuts with _ | ⟨k, cuts⟩
        · simp only [List.headD_nil, min_self, List.length_drop,
            List.length_cons, List.tail_nil, List.length_nil]
          omega
        · simp only [List.length_drop, List.tail_cons, List.length_cons]
          omega

theorem cutRead_none {c c' : Bytes × List ℕ} {size : Int}
    (h : cutRead c size = (none, c')) : c.1 = [] ∧ c'.1 = [] := by
  rw [cutRead.eq_def] at h
  split at h <;> cases h
  exact ⟨rfl, rfl⟩

theorem cutRead_finite : WellFounded fun c' c : Bytes × List ℕ =>
    ∃ size p, 0 < size ∧ cutRead c size = (some p, c') := by
  apply Subrelation.wf _
    (InvImage.wf (fun c : Bytes × List ℕ => c.1.length + c.2.length)
      wellFounded_lt)
  rintro c' c ⟨size, p, hsize, h⟩
  exact (cutRead_some hsize h).2.2

/-- A stream that is read in pieces of given lengths. -/
def cutReader : Reader where
  State := Bytes × List ℕ
  read := cutRead
  rest := Prod.fst
  of_some hsize h := ⟨(cutRead_some hsize h).1, (cutRead_some hsize h).2.1⟩
  of_none _ h := cutRead_none h
  finite := cutRead_finite

/-! ## Two ways of cutting a stream -/

/-- Two readbuffers over one stream answer the same calls alike however the
stream is cut into pieces, and no byte is lost, repeated or moved. -/
theorem chunking_independent (R₁ R₂ : Reader) (bufsize : Int)
    (c₁ : R₁.State) (c₂ : R₂.State) (ops : List Op)
    (hstream : R₁.rest c₁ = R₂.rest c₂)
    (hops : ∀ op ∈ ops, op.Allowed bufsize) :
    answers bufsize c₁ ops = answers bufsize c₂ ops ∧
      leftover bufsize c₁ ops = leftover bufsize c₂ ops ∧
      consumedAll ops (answers bufsize c₁ ops) ++ leftover bufsize c₁ ops =
        R₁.rest c₁ := by
  have hfollows₁ := follows_stream c₁ hops
  have hfollows₂ := follows_stream c₂ hops
  have hnew : (new c₁).remaining = (new c₂).remaining := hstream
  rw [Follows, List.map_id, hnew] at hfollows₁
  rw [Follows, List.map_id] at hfollows₂
  refine ⟨?_, ?_, consumedAll_answers c₁ hops⟩
  · exact hfollows₁.2.trans hfollows₂.2.symm
  · exact hfollows₁.1.trans hfollows₂.1.symm

/-- A line terminator in two pieces, and the empty string in between. -/
theorem chunking_independent_cut :
    let ops := [.readline, .readchunks 2 (some 3), .readsize 1, .readline,
      .readall none]
    let c₁ : cutReader.State := (lit "12345\r\nabc\r\nd", [2, 2, 2, 0, 1])
    let c₂ : cutReader.State := (lit "12345\r\nabc\r\nd", [])
    answers 7 c₁ ops = answers 7 c₂ ops ∧
      leftover 7 c₁ ops = leftover 7 c₂ ops ∧
      consumedAll ops (answers 7 c₁ ops) ++ leftover 7 c₁ ops =
        cutReader.rest c₁ :=
  chunking_independent cutReader cutReader 7 _ _ _ rfl (by simp [Op.Allowed])

end LuaAttic.Http.Readbuffer
