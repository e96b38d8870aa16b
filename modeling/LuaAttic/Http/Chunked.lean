import Mathlib.Logic.Function.Basic
import LuaAttic.Http.Chunking
import LuaAttic.Http.Timeouts

/-!
# Chunked bodies (`http.lua`, `http_client.lua`)

A body of unknown length is sent as chunks: the size of a chunk as a line, its
bytes and an empty line, down to a chunk of size zero and the trailers, which
are headers.  The reader takes lines and blocks from a connection.
-/

namespace LuaAttic.Http

open LuaAttic.Lua Function

/-! ## Connections -/

/-- The functions `readline` and `readsize` over the bytes that are still to
come.  `readline` returns none where it raises; the iterator of `readsize`
returns blocks before it raises. -/
structure Connection where
  readline : Bytes → Option (Bytes × Bytes)
  readsize : ℕ → Bytes → List Bytes × Option Bytes
  readline_line : ∀ line rest, 0x0D ∉ line → 0x0A ∉ line →
    readline (line ++ 0x0D :: 0x0A :: rest) = some (line, rest)
  readsize_block : ∀ w rest, ∃ parts : List Bytes,
    readsize w.length (w ++ rest) = (parts, some rest) ∧ parts.flatten = w
  readline_lt : ∀ {s line rest}, readline s = some (line, rest) →
    rest.length < s.length
  readsize_le : ∀ {n s parts rest}, readsize n s = (parts, some rest) →
    rest.length ≤ s.length

/-- A block that is there is one string. -/
def readBlock (n : ℕ) (s : Bytes) : List Bytes × Option Bytes :=
  if n ≤ s.length then ([s.take n], some (s.drop n)) else ([], none)

theorem readBlock_block (w rest : Bytes) :
    ∃ parts : List Bytes,
      readBlock w.length (w ++ rest) = (parts, some rest) ∧
        parts.flatten = w := by
  refine ⟨[w], ?_, List.flatten_singleton⟩
  rw [readBlock, if_pos (by simp)]
  simp

theorem readBlock_le {n : ℕ} {s : Bytes} {parts : List Bytes} {rest : Bytes}
    (h : readBlock n s = (parts, some rest)) : rest.length ≤ s.length := by
  rw [readBlock] at h
  split_ifs at h
  · cases h
    exact (List.drop_sublist n s).length_le
  · cases h

theorem splitLine_line {line : Bytes} (hcr : 0x0D ∉ line) (rest : Bytes) :
    Readbuffer.splitLine (line ++ 0x0D :: 0x0A :: rest) =
      some (line, rest) := by
  induction line with
  | nil => rfl
  | cons b line ih =>
      rw [List.mem_cons, not_or] at hcr
      rw [List.cons_append, Readbuffer.splitLine, ih hcr.2, if_neg]
      · rfl
      · exact fun hb => hcr.1 hb.1.symm

theorem lineOfBytes_line {line : Bytes} (hcr : 0x0D ∉ line)
    (hlf : 0x0A ∉ line) (rest : Bytes) :
    Socketreader.lineOfBytes (line ++ 0x0D :: 0x0A :: rest) =
      some (line, rest) := by
  induction line with
  | nil => rfl
  | cons b line ih =>
      rw [List.mem_cons, not_or] at hcr hlf
      rw [List.cons_append, Socketreader.lineOfBytes, if_neg (Ne.symm hlf.1),
        ih hcr.2 hlf.2, Option.map_some, if_neg (Ne.symm hcr.1)]

theorem lineOfBytes_lt {s line rest : Bytes}
    (h : Socketreader.lineOfBytes s = some (line, rest)) :
    rest.length < s.length := by
  induction s generalizing line with
  | nil => cases h
  | cons b s ih =>
      rw [Socketreader.lineOfBytes] at h
      by_cases hb : b = 0x0A
      · rw [if_pos hb] at h
        cases h
        exact Nat.lt_succ_self _
      · rw [if_neg hb] at h
        rcases Option.map_eq_some_iff.mp h with ⟨⟨l, r⟩, hs, heq⟩
        cases heq
        exact (ih hs).trans (Nat.lt_succ_self _)

/-- The connection of a readbuffer whose buffer does not overflow. -/
def bufferConnection : Connection where
  readline := Readbuffer.splitLine
  readsize := readBlock
  readline_line _ rest hcr _ := splitLine_line hcr rest
  readsize_block := readBlock_block
  readline_lt h := by
    rw [Readbuffer.splitLine_eq_some h]
    simp
    omega
  readsize_le := readBlock_le

/-- The connection of a socketreader whose socket does not time out. -/
def socketConnection : Connection where
  readline := Socketreader.lineOfBytes
  readsize := readBlock
  readline_line _ rest hcr hlf := lineOfBytes_line hcr hlf rest
  readsize_block := readBlock_block
  readline_lt := lineOfBytes_lt
  readsize_le := readBlock_le

/-! ## Headers -/

/-- The errors that the readers raise. -/
inductive Error
  /-- `readline` or `readsize` raises -/
  | eof
  /-- `tonumber(nil, 16)` -/
  | badArgument
  | invalidChunkSize
  | malformedHeader (s : Bytes)
  deriving DecidableEq, Repr

/-- The texts of the errors that the readers raise themselves. -/
def Error.message : Error → Option Bytes
  | .invalidChunkSize => some (lit "invalid chunk size")
  | .malformedHeader s => some (lit "malformed header " ++ s)
  | _ => none

/-- A table of headers. -/
abbrev Headers := Bytes → Option Bytes

/-- `s:gsub('[\t ]+', ' ')` -/
def collapse (s : Bytes) : Bytes :=
  gsub ⟨[.plus (oneOf "\t ")], false⟩ (fun _ => some (lit " ")) s

/-- `'^([^:]+): ?(.-) ?$'` -/
def headerPattern : Pattern where
  items := [.capStart, .plus (noneOf ":"), .capStop, .one (chr ':'),
    .opt (chr ' '), .capStart, .lazy anyChar, .capStop, .opt (chr ' '), .atEnd]
  anchored := true

/-- `k:gsub('%-', '_'):lower()` -/
def headerName (k : Bytes) : Bytes :=
  lower (gsub ⟨[.one (chr '-')], false⟩ (fun _ => some (lit "_")) k)

/-- `s:gsub(' $', '')` -/
def rtrim (s : Bytes) : Bytes :=
  gsub ⟨[.one (chr ' '), .atEnd], false⟩ (fun _ => some []) s

variable (C : Connection)

/-- The lines that go on with a value, up to the line after it. -/
def readValue (v s conn : Bytes) : Except Error (Bytes × Bytes × Bytes) :=
  if Pattern.matches ⟨[.one (oneOf "\t ")], true⟩ s then
    match _h : C.readline conn with
    | some (s', conn') => readValue (v ++ rtrim (collapse s)) s' conn'
    | none => .error .eof
  else .ok (v, s, conn)
termination_by conn.length
decreasing_by exact C.readline_lt _h

/-- The rest of the connection is no longer after the value. -/
theorem readValue_le {v s conn v' s' conn' : Bytes}
    (h : readValue C v s conn = .ok (v', s', conn')) :
    conn'.length ≤ conn.length := by
  induction hn : conn.length using Nat.strong_induction_on
    generalizing v s conn with
  | _ n ih =>
      subst hn
      rw [readValue.eq_def] at h
      split_ifs at h
      · split at h
        · rename_i s'' conn'' hline
          have hlt := C.readline_lt hline
          exact (ih _ hlt h rfl).trans hlt.le
        · cases h
      · cases h
        exact le_rfl

/-- `headers[k] = headers[k]..','..v`, or `v` if there is none. -/
def addHeader (headers : Headers) (k v : Bytes) : Headers :=
  update headers k (some ((headers k).elim v (· ++ lit "," ++ v)))

/-- The headers from the line `s` on. -/
def headersFrom (headers : Headers) (s conn : Bytes) :
    Except Error (Headers × Bytes) :=
  if s = [] then .ok (headers, conn)
  else
    match headerPattern.values (collapse s) with
    | some [k, v] =>
        match _hline : C.readline conn with
        | some (s', conn') =>
            match _hvalue : readValue C v s' conn' with
            | .ok (v, s'', conn'') =>
                headersFrom (addHeader headers (headerName k) v) s'' conn''
            | .error e => .error e
        | none => .error .eof
    | _ => .error (.malformedHeader (collapse s))
termination_by conn.length
decreasing_by
  exact (readValue_le C _hvalue).trans_lt (C.readline_lt _hline)

def readHeaders (headers : Headers) (conn : Bytes) :
    Except Error (Headers × Bytes) :=
  match C.readline conn with
  | some (s, conn') => headersFrom C headers s conn'
  | none => .error .eof

/-! ## The reader of chunks -/

/-- The size of a chunk: its line without an extension, in hexadecimal. -/
def chunkSize (line : Bytes) : Except Error ℕ :=
  match Pattern.values ⟨[.plus (noneOf ";")], true⟩ line with
  | some (s :: _) =>
      match tonumber16 s with
      | some size => .ok size
      | none => .error .invalidChunkSize
  | _ => .error .badArgument

/-- The pieces of the body that are returned, and then an error, or the
trailers and what is left of the connection. -/
def chunkedReader (trailers : Headers) (conn : Bytes) :
    List Bytes × Except Error (Headers × Bytes) :=
  match _hline : C.readline conn with
  | none => ([], .error .eof)
  | some (line, conn₁) =>
      match chunkSize line with
      | .error e => ([], .error e)
      | .ok 0 => ([], readHeaders C trailers conn₁)
      | .ok (size + 1) =>
          match _hsize : C.readsize (size + 1) conn₁ with
          | (parts, none) => (parts, .error .eof)
          | (parts, some conn₂) =>
              match _hend : C.readline conn₂ with
              | none => (parts, .error .eof)
              | some (_, conn₃) =>
                  let r := chunkedReader trailers conn₃
                  (parts ++ r.1, r.2)
termination_by conn.length
decreasing_by
  exact ((C.readline_lt _hend).trans_le (C.readsize_le _hsize)).trans
    (C.readline_lt _hline)

/-! ## The writer -/

/-- The body of a request: a string, or a function that returns its pieces. -/
inductive Body
  | string (s : Bytes)
  | read (pieces : List Bytes)

def writeChunk (s : Bytes) : Bytes :=
  formatHex s.length ++ lit "\r\n" ++ s ++ lit "\r\n"

/-- What `getpage` writes of the body, after the headers; none where it
raises. -/
def writeBody (contentLength : Bool) : Option Body → Option Bytes
  | some (.string s) => if contentLength then some s else none
  | some (.read pieces) =>
      if contentLength then some pieces.flatten
      else some (pieces.flatMap writeChunk ++ writeChunk [] ++ lit "r\n")
  | none => if contentLength then none else some []

/-! ## What the reader makes of the chunks -/

variable {C}

theorem chunkSize_of_digits {s : Bytes} (hs : s ≠ []) (hsemi : 0x3B ∉ s)
    {n : ℕ} (hn : tonumber16 s = some n) : chunkSize s = .ok n := by
  have hall : ∀ b ∈ s, noneOf ";" b = true := by
    intro b hb
    have hne : b ≠ 0x3B := fun heq => hsemi (heq ▸ hb)
    simpa [noneOf, lit, Char.toUInt8] using hne
  have hdrop : s.dropWhile (noneOf ";") = [] :=
    List.dropWhile_eq_nil_iff.mpr hall
  have hitems : matchItems [.plus (noneOf ";")] [] s = some ([], []) := by
    obtain ⟨b, t, rfl⟩ := List.exists_cons_of_ne_nil hs
    have hb := hall b List.mem_cons_self
    rw [List.dropWhile_cons_of_pos hb] at hdrop
    rw [matchItems, if_pos hb, maxExpand_of_isSome rfl, hdrop]
    rfl
  have hvalues : Pattern.values ⟨[.plus (noneOf ";")], true⟩ s = some [s] := by
    rw [Pattern.values, Pattern.find.eq_def, Pattern.matchHere, hitems]
    simp
  rw [chunkSize, hvalues]
  simp [hn]

theorem hexDigit_ne : ∀ n < 16, hexDigit n ≠ 0x0D ∧ hexDigit n ≠ 0x0A ∧
    hexDigit n ≠ 0x3B := by
  decide

theorem notMem_formatHex (n : ℕ) :
    0x0D ∉ formatHex n ∧ 0x0A ∉ formatHex n ∧ 0x3B ∉ formatHex n := by
  refine ⟨fun h => ?_, fun h => ?_, fun h => ?_⟩ <;>
    obtain ⟨d, hd, heq⟩ := mem_formatHex h
  · exact (hexDigit_ne d hd).1 heq.symm
  · exact (hexDigit_ne d hd).2.1 heq.symm
  · exact (hexDigit_ne d hd).2.2 heq.symm

/-- The size that is written is the size that is read. -/
theorem chunkSize_formatHex (n : ℕ) : chunkSize (formatHex n) = .ok n :=
  chunkSize_of_digits (formatHex_ne_nil n) (notMem_formatHex n).2.2
    (tonumber16_formatHex n)

theorem readline_formatHex (n : ℕ) (rest : Bytes) :
    C.readline (formatHex n ++ 0x0D :: 0x0A :: rest) =
      some (formatHex n, rest) :=
  C.readline_line _ rest (notMem_formatHex n).1 (notMem_formatHex n).2.1

theorem readline_empty (rest : Bytes) :
    C.readline (0x0D :: 0x0A :: rest) = some ([], rest) :=
  C.readline_line [] rest List.not_mem_nil List.not_mem_nil

theorem writeChunk_append (s more : Bytes) :
    writeChunk s ++ more =
      formatHex s.length ++ 0x0D :: 0x0A :: (s ++ 0x0D :: 0x0A :: more) := by
  have hcrlf : lit "\r\n" = [0x0D, 0x0A] := by decide
  simp [writeChunk, hcrlf]

theorem chunkedReader_of_chunk {conn conn₁ conn₂ conn₃ line line' : Bytes}
    {parts : List Bytes} {size : ℕ} (trailers : Headers)
    (hline : C.readline conn = some (line, conn₁))
    (hsize : chunkSize line = .ok (size + 1))
    (hparts : C.readsize (size + 1) conn₁ = (parts, some conn₂))
    (hend : C.readline conn₂ = some (line', conn₃)) :
    chunkedReader C trailers conn =
      (parts ++ (chunkedReader C trailers conn₃).1,
        (chunkedReader C trailers conn₃).2) := by
  rw [chunkedReader.eq_def]
  split
  · rename_i h
    cases hline.symm.trans h
  · rename_i h
    cases hline.symm.trans h
    rw [hsize]
    dsimp only
    split
    · rename_i h
      cases hparts.symm.trans h
    · rename_i h
      cases hparts.symm.trans h
      split
      · rename_i h
        cases hend.symm.trans h
      · rename_i h
        cases hend.symm.trans h
        rfl

/-- A chunk that is not empty is returned. -/
theorem chunkedReader_chunk {s : Bytes} (hs : s ≠ []) (trailers : Headers)
    (more : Bytes) :
    ∃ parts : List Bytes, parts.flatten = s ∧
      chunkedReader C trailers (writeChunk s ++ more) =
        (parts ++ (chunkedReader C trailers more).1,
          (chunkedReader C trailers more).2) := by
  obtain ⟨parts, hparts, hflat⟩ :=
    C.readsize_block s (0x0D :: 0x0A :: more)
  refine ⟨parts, hflat, ?_⟩
  obtain ⟨n, hn⟩ : ∃ n, s.length = n + 1 :=
    Nat.exists_eq_succ_of_ne_zero (mt List.length_eq_zero_iff.mp hs)
  have hsize := chunkSize_formatHex s.length
  rw [hn] at hparts hsize
  rw [writeChunk_append, hn]
  exact chunkedReader_of_chunk trailers (readline_formatHex _ _) hsize hparts
    (readline_empty more)

/-- An empty chunk is taken for the end of the body. -/
theorem chunkedReader_empty (trailers : Headers) (more : Bytes) :
    chunkedReader C trailers (writeChunk [] ++ more) =
      ([], .ok (trailers, more)) := by
  have hline : C.readline (formatHex 0 ++ 0x0D :: 0x0A ::
      0x0D :: 0x0A :: more) = some (formatHex 0, 0x0D :: 0x0A :: more) :=
    readline_formatHex _ _
  have hheaders : readHeaders C trailers (0x0D :: 0x0A :: more) =
      .ok (trailers, more) := by
    rw [readHeaders, readline_empty]
    exact (headersFrom.eq_def ..).trans (if_pos rfl)
  have hsize := chunkSize_formatHex 0
  rw [writeChunk_append, chunkedReader.eq_def, List.nil_append]
  split <;> simp_all

/-- What is read of pieces that are not empty and an empty one. -/
theorem chunkedReader_pieces {pieces : List Bytes} (h : ∀ s ∈ pieces, s ≠ [])
    (trailers : Headers) (more : Bytes) :
    ∃ parts : List Bytes, parts.flatten = pieces.flatten ∧
      chunkedReader C trailers
          (pieces.flatMap writeChunk ++ (writeChunk [] ++ more)) =
        (parts, .ok (trailers, more)) := by
  induction pieces with
  | nil => exact ⟨[], rfl, chunkedReader_empty trailers more⟩
  | cons s pieces ih =>
      obtain ⟨parts, hflat, hread⟩ :=
        ih fun t ht => h t (List.mem_cons_of_mem s ht)
      obtain ⟨first, hfirst, hchunk⟩ :=
        chunkedReader_chunk (C := C) (h s List.mem_cons_self) trailers
          (pieces.flatMap writeChunk ++ (writeChunk [] ++ more))
      refine ⟨first ++ parts, ?_, ?_⟩
      · rw [List.flatten_append, hfirst, hflat, List.flatten_cons]
      · rw [List.flatMap_cons, List.append_assoc, hchunk, hread]

/-- What is left on the connection after the body. -/
def leftOver (pieces : List Bytes) : Bytes :=
  match pieces.dropWhile (· ≠ []) with
  | [] => lit "r\n"
  | _ :: rest => rest.flatMap writeChunk ++ writeChunk [] ++ lit "r\n"

theorem leftOver_ne_nil (pieces : List Bytes) : leftOver pieces ≠ [] := by
  have hlit : lit "r\n" ≠ [] := by decide
  unfold leftOver
  split
  · exact hlit
  · exact List.append_ne_nil_of_right_ne_nil _ hlit

/-- The body is read up to its first empty piece, and the rest is left. -/
theorem chunkedReader_writeBody (trailers : Headers) (pieces : List Bytes) :
    ∃ bytes parts, writeBody false (some (.read pieces)) = some bytes ∧
      chunkedReader C trailers bytes =
        (parts, .ok (trailers, leftOver pieces)) ∧
      parts.flatten = (pieces.takeWhile (· ≠ [])).flatten := by
  have hne : ∀ s ∈ pieces.takeWhile (· ≠ []), s ≠ [] := by
    intro s hs
    simpa using List.mem_takeWhile_imp hs
  obtain ⟨parts, hflat, hread⟩ :=
    chunkedReader_pieces (C := C) hne trailers (leftOver pieces)
  have hbytes : pieces.flatMap writeChunk ++ writeChunk [] ++ lit "r\n" =
      (pieces.takeWhile (· ≠ [])).flatMap writeChunk ++
        (writeChunk [] ++ leftOver pieces) := by
    have hsplit := List.takeWhile_append_dropWhile (p := (· ≠ [])) (l := pieces)
    rw [leftOver]
    cases hdrop : pieces.dropWhile (· ≠ []) with
    | nil =>
        rw [hdrop, List.append_nil] at hsplit
        rw [hsplit, List.append_assoc]
    | cons s rest =>
        have hs : s = [] := by
          have hhead := List.head?_dropWhile_not (· ≠ []) pieces
          rw [hdrop] at hhead
          simpa using hhead
        rw [hdrop, hs] at hsplit
        conv_lhs => rw [← hsplit]
        simp [List.append_assoc]
  exact ⟨_, parts, rfl, by rw [hbytes, hread], hflat⟩

/-! ## The round trip -/

/-- The bytes written for a body are read back as the whole body, and to the
last of them. -/
def RoundTrips (C : Connection) (trailers : Headers) (pieces : List Bytes) :
    Prop :=
  ∃ bytes parts trailers',
    writeBody false (some (.read pieces)) = some bytes ∧
      chunkedReader C trailers bytes = (parts, .ok (trailers', [])) ∧
      parts.flatten = pieces.flatten

/-- The bytes written for a body are read back as the whole body. -/
def ReadsWhole (C : Connection) (trailers : Headers) (pieces : List Bytes) :
    Prop :=
  ∃ bytes parts rest,
    writeBody false (some (.read pieces)) = some bytes ∧
      chunkedReader C trailers bytes = (parts, .ok rest) ∧
      parts.flatten = pieces.flatten

/-- Something is always left. -/
theorem not_roundTrips (trailers : Headers) (pieces : List Bytes) :
    ¬ RoundTrips C trailers pieces := by
  rintro ⟨bytes', parts', trailers', hbytes', hread', -⟩
  obtain ⟨bytes, parts, hbytes, hread, -⟩ :=
    chunkedReader_writeBody (C := C) trailers pieces
  cases hbytes.symm.trans hbytes'
  rw [hread] at hread'
  simp only [Prod.mk.injEq, Except.ok.injEq] at hread'
  exact leftOver_ne_nil pieces hread'.2.2

theorem readsWhole_iff (trailers : Headers) (pieces : List Bytes) :
    ReadsWhole C trailers pieces ↔
      (pieces.dropWhile (· ≠ [])).flatten = [] := by
  obtain ⟨bytes, parts, hbytes, hread, hflat⟩ :=
    chunkedReader_writeBody (C := C) trailers pieces
  have hsplit : pieces.flatten = (pieces.takeWhile (· ≠ [])).flatten ++
      (pieces.dropWhile (· ≠ [])).flatten := by
    rw [← List.flatten_append, List.takeWhile_append_dropWhile]
  have hwhole : parts.flatten = pieces.flatten ↔
      (pieces.dropWhile (· ≠ [])).flatten = [] := by
    rw [hflat, hsplit, List.self_eq_append_right]
  rw [← hwhole]
  constructor
  · rintro ⟨bytes', parts', rest, hbytes', hread', hflat'⟩
    cases hbytes.symm.trans hbytes'
    cases hread.symm.trans hread'
    exact hflat'
  · exact fun h => ⟨bytes, parts, _, hbytes, hread, h⟩

/-- No body makes the round trip, since something is always left.  The body
itself is read as a whole exactly when nothing comes after an empty piece. -/
theorem never_roundTrips (C : Connection) (trailers : Headers)
    (pieces : List Bytes) :
    ¬ RoundTrips C trailers pieces ∧
      (ReadsWhole C trailers pieces ↔
        (pieces.dropWhile (· ≠ [])).flatten = []) :=
  ⟨not_roundTrips trailers pieces, readsWhole_iff trailers pieces⟩

/-- A body of one piece, of which the misspelt line end is left, and a body
that is lost after an empty piece. -/
theorem line_end_left :
    writeBody false (some (.read [lit "abc"])) =
        some (lit "3\r\nabc\r\n0\r\n\r\nr\n") ∧
      ¬ RoundTrips socketConnection (fun _ => none) [lit "abc"] ∧
      ¬ ReadsWhole socketConnection (fun _ => none) [[], lit "abc"] := by
  refine ⟨?_, not_roundTrips _ _, fun h => ?_⟩
  · have hchunk : ∀ s : Bytes, s.length < 16 → writeChunk s =
        [hexDigit s.length] ++ lit "\r\n" ++ s ++ lit "\r\n" := by
      intro s hs
      rw [writeChunk, formatHex, if_pos hs]
    simp only [writeBody, List.flatMap_cons, List.flatMap_nil]
    rw [hchunk (lit "abc") (by decide), hchunk [] (by decide)]
    rfl
  · exact absurd ((readsWhole_iff _ _).mp h) (by decide)

end LuaAttic.Http
