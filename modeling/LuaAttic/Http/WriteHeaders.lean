import Mathlib.Data.List.Lex
import Mathlib.Data.List.Sort
import LuaAttic.Lua.Tables
import LuaAttic.Http.HeaderText

/-!
# Headers that are written and read back (`http.lua`)

The headers of a table are written as lines in the order of their names.  Reading the
lines gives the same keys, with the values normalized, and writing these again gives the
same lines.
-/

namespace LuaAttic.Http

open LuaAttic.Lua LuaAttic.Support Function

/-! ## The modelled functions -/

/-- What `write_headers` raises. -/
inductive WriteError
  | duplicateHeader
  deriving DecidableEq, Repr

def WriteError.message : WriteError → Bytes
  | .duplicateHeader => lit "duplicate header"

/-- `a <= b` for strings: by the first byte that differs. -/
def stringLE (a b : Bytes) : Bool := decide (a.map UInt8.toNat ≤ b.map UInt8.toNat)

/-- `table.sort(names)` -/
def sortNames (names : List Bytes) : List Bytes := names.mergeSort stringLE

/-- One round of the loop over a table: the names and the values that are collected. -/
def collectHeader (headers : Table Bytes Bytes) (st : List Bytes × Headers) (k : Bytes) :
    Except WriteError (List Bytes × Headers) :=
  match headers.get k with
  | none => .ok st
  | some v =>
      let (names, values) := st
      let k := formatHeaderName k
      let names := names ++ [k]
      if (values k).isSome then .error .duplicateHeader
      else .ok (names, update values k (some (formatHeaderValue v)))

/-- `write_headers(write, headers)`: the strings that are written, one after the other. -/
def writeHeaders (order : Order Bytes) (headers : Table Bytes Bytes) :
    Except WriteError (List Bytes) := do
  let (names, values) ← (order.apply headers.keys).foldlM (collectHeader headers)
    ([], fun _ => none)
  let lines := (sortNames names).filterMap fun k => (values k).map (formatHeader k)
  return lines ++ [lit "\r\n"]

/-! ## What is written -/

/-- Tables with keys in `[a-z0-9_]+` and values without line breaks. -/
structure HeaderTable (T : Table Bytes Bytes) : Prop where
  keys : ∀ k ∈ T.keys, k ≠ [] ∧ ∀ b ∈ k, isKeyByte b = true
  values : ∀ k v, T.get k = some v → 0x0D ∉ v ∧ 0x0A ∉ v

/-- The value that is written under a name. -/
def writtenValue (T : Table Bytes Bytes) (n : Bytes) : Option Bytes :=
  (T.get (headerName n)).map headerValue

section Collect

variable {T : Table Bytes Bytes}

theorem HeaderTable.headerName_eq (h : HeaderTable T) {k : Bytes} (hk : k ∈ T.keys) :
    headerName (formatHeaderName k) = k :=
  headerName_formatHeaderName (h.keys k hk).2

/-- The values that are collected for some keys. -/
def collected (T : Table Bytes Bytes) (ks : List Bytes) : Headers := fun n =>
  if n ∈ ks.map formatHeaderName then writtenValue T n else none

theorem collectHeader_eq (h : HeaderTable T) {k : Bytes} {ks : List Bytes} (hk : k ∈ T.keys)
    (hks : ∀ k' ∈ ks, k' ∈ T.keys) (hnew : k ∉ ks) :
    collectHeader T (ks.map formatHeaderName, collected T ks) k =
      .ok ((ks ++ [k]).map formatHeaderName, collected T (ks ++ [k])) := by
  have hname : formatHeaderName k ∉ ks.map formatHeaderName := by
    intro hmem
    obtain ⟨k', hk', heq⟩ := List.mem_map.mp hmem
    have hsame := congrArg headerName heq
    rw [h.headerName_eq (hks k' hk'), h.headerName_eq hk] at hsame
    exact hnew (hsame ▸ hk')
  obtain ⟨v, hv⟩ := Option.isSome_iff_exists.mp ((T.mem_keys k).mp hk)
  have hnone : ¬ (collected T ks (formatHeaderName k)).isSome = true := by
    rw [collected, if_neg hname]
    exact Bool.false_ne_true
  rw [collectHeader, hv]
  simp only [if_neg hnone]
  rw [List.map_append]
  refine congrArg (fun values => Except.ok (_, values)) ?_
  funext n
  by_cases hn : n = formatHeaderName k
  · subst hn
    rw [update_self, collected, if_pos (by simp), writtenValue, h.headerName_eq hk, hv,
      formatHeaderValue_eq]
    rfl
  · rw [update_of_ne hn, collected, collected]
    simp [hn]

/-- The loop comes to its end with all names and values. -/
theorem foldlM_collectHeader (h : HeaderTable T) {ks done : List Bytes}
    (hmem : ∀ k ∈ done ++ ks, k ∈ T.keys) (hnodup : (done ++ ks).Nodup) :
    ks.foldlM (collectHeader T) (done.map formatHeaderName, collected T done) =
      .ok ((done ++ ks).map formatHeaderName, collected T (done ++ ks)) := by
  induction ks generalizing done with
  | nil =>
      rw [List.append_nil]
      rfl
  | cons k ks ih =>
      have hnew : k ∉ done := fun hk =>
        (List.nodup_append.mp hnodup).2.2 k hk k List.mem_cons_self rfl
      have hstep := collectHeader_eq h (hmem k (by simp))
        (fun k' hk' => hmem k' (List.mem_append_left _ hk')) hnew
      rw [List.append_cons] at hmem hnodup ⊢
      have hrest := ih hmem hnodup
      rw [List.foldlM_cons, hstep]
      exact hrest

/-- The names in the order in which they are written. -/
def writtenNames (T : Table Bytes Bytes) : List Bytes := sortNames (T.keys.map formatHeaderName)

/-- The names with their values. -/
def entries (T : Table Bytes Bytes) : List (Bytes × Bytes) :=
  (writtenNames T).filterMap fun n => (writtenValue T n).map fun v => (n, v)

theorem sortNames_eq_of_perm {l l' : List Bytes} (h : l.Perm l') : sortNames l = sortNames l' := by
  have hsorted (l : List Bytes) : (sortNames l).Pairwise fun a b => stringLE a b := by
    apply List.pairwise_mergeSort
    · intro a b c hab hbc
      rw [stringLE, decide_eq_true_eq] at hab hbc ⊢
      exact hab.trans hbc
    · intro a b
      rw [stringLE, stringLE, Bool.or_eq_true, decide_eq_true_eq, decide_eq_true_eq]
      exact le_total _ _
  have hperm : (sortNames l).Perm (sortNames l') :=
    ((List.mergeSort_perm l stringLE).trans h).trans (List.mergeSort_perm l' stringLE).symm
  refine hperm.eq_of_pairwise ?_ (hsorted l) (hsorted l')
  intro a b _ _ hab hba
  rw [stringLE, decide_eq_true_eq] at hab hba
  exact List.map_injective_iff.mpr (fun _ _ => UInt8.toNat_inj.mp) (le_antisymm hab hba)

theorem mem_writtenNames {n : Bytes} :
    n ∈ writtenNames T ↔ ∃ k ∈ T.keys, formatHeaderName k = n := by
  rw [writtenNames, sortNames, List.mem_mergeSort, List.mem_map]

/-- The lines of the entries are written, and the empty line. -/
theorem writeHeaders_eq (h : HeaderTable T) (order : Order Bytes) :
    writeHeaders order T =
      .ok ((entries T).map (fun e => formatHeader e.1 e.2) ++ [lit "\r\n"]) := by
  have hperm := order.perm T.keys
  have hmem : ∀ k ∈ [] ++ order.apply T.keys, k ∈ T.keys := fun k hk => hperm.subset hk
  have hloop := foldlM_collectHeader h hmem (hperm.nodup_iff.mpr T.nodup)
  have hempty : collected T [] = fun _ => none := by
    funext n
    simp [collected]
  have hnames : sortNames ((order.apply T.keys).map formatHeaderName) = writtenNames T :=
    sortNames_eq_of_perm (hperm.map _)
  rw [hempty, List.nil_append, List.map_nil] at hloop
  rw [writeHeaders, hloop]
  change Except.ok (List.filterMap _ (sortNames _) ++ _) = _
  rw [hnames, entries, List.map_filterMap]
  refine congrArg (fun lines => Except.ok (lines ++ [lit "\r\n"])) ?_
  apply List.filterMap_congr
  intro n hn
  obtain ⟨k, hk, rfl⟩ := mem_writtenNames.mp hn
  have hmem : formatHeaderName k ∈ (order.apply T.keys).map formatHeaderName :=
    List.mem_map_of_mem (hperm.mem_iff.mpr hk)
  rw [collected, if_pos hmem, Option.map_map]
  rfl

end Collect

/-! ## What is read -/

/-- A name and a value that are written. -/
structure Written (e : Bytes × Bytes) : Prop where
  ne_nil : e.1 ≠ []
  name : ∀ b ∈ e.1, isNameByte b = true
  normal : ∃ w, e.2 = headerValue w
  line : 0x0D ∉ e.2 ∧ 0x0A ∉ e.2

/-- The lines of some headers, the empty line and what comes after it. -/
def encode (l : List (Bytes × Bytes)) (rest : Bytes) : Bytes :=
  (l.map fun e => formatHeader e.1 e.2).flatten ++ 0x0D :: 0x0A :: rest

section Read

variable {C : Connection} {e : Bytes × Bytes} {l : List (Bytes × Bytes)} {rest : Bytes}

theorem formatHeader_append (n v more : Bytes) :
    formatHeader n v ++ more = (n ++ 0x3A :: 0x20 :: v) ++ 0x0D :: 0x0A :: more := by
  have hcolon : lit ": " = [0x3A, 0x20] := by decide
  have hcrlf : lit "\r\n" = [0x0D, 0x0A] := by decide
  simp [formatHeader, hcolon, hcrlf]

theorem encode_cons : encode (e :: l) rest = formatHeader e.1 e.2 ++ encode l rest := by
  rw [encode, encode, List.map_cons, List.flatten_cons, List.append_assoc]

theorem Written.readline (he : Written e) (more : Bytes) :
    C.readline (formatHeader e.1 e.2 ++ more) = some (e.1 ++ 0x3A :: 0x20 :: e.2, more) := by
  rw [formatHeader_append]
  apply C.readline_line
  · rw [List.mem_append, not_or]
    refine ⟨fun hb => (isNameByte_ne (he.name _ hb)).2.2.1 rfl, ?_⟩
    simpa using he.line.1
  · rw [List.mem_append, not_or]
    refine ⟨fun hb => (isNameByte_ne (he.name _ hb)).2.2.2 rfl, ?_⟩
    simpa using he.line.2

variable (C rest) in
/-- The next line does not go on with a value. -/
theorem exists_readline_encode (hl : ∀ e ∈ l, Written e) :
    ∃ s conn, C.readline (encode l rest) = some (s, conn) ∧
      Pattern.matches ⟨[.one (oneOf "\t ")], true⟩ s = false := by
  cases l with
  | nil => exact ⟨[], rest, readline_empty rest, rfl⟩
  | cons e l =>
      have he := hl e List.mem_cons_self
      refine ⟨e.1 ++ 0x3A :: 0x20 :: e.2, encode l rest, ?_, ?_⟩
      · rw [encode_cons]
        exact he.readline _
      · obtain ⟨b, t, hn⟩ := List.exists_cons_of_ne_nil he.ne_nil
        have hb : oneOf "\t " b = false := by
          apply (isNameByte_ne (he.name b _)).1
          rw [hn]
          exact List.mem_cons_self
        have hitems : matchItems [.one (oneOf "\t ")] [] (b :: (t ++ 0x3A :: 0x20 :: e.2)) =
            none := by
          rw [matchItems, hb]
          rfl
        rw [hn, List.cons_append, Pattern.matches, Pattern.find.eq_def,
          matchHere_eq_none (p := ⟨[.one (oneOf "\t ")], true⟩) hitems]
        rfl

/-- A header is read from its line. -/
theorem readHeaders_cons (H : Headers) (he : Written e) (hl : ∀ e ∈ l, Written e) :
    readHeaders C H (encode (e :: l) rest) =
      readHeaders C (addHeader H (headerName e.1) e.2) (encode l rest) := by
  obtain ⟨w, hw⟩ := he.normal
  obtain ⟨s, conn, hnext, hblank⟩ := exists_readline_encode C rest hl
  have hline := he.readline (C := C) (encode l rest)
  have hne : e.1 ++ 0x3A :: 0x20 :: e.2 ≠ [] := by simp
  have hlast : ∀ b ∈ e.2.getLast?, b ≠ 0x20 := by
    rintro b hb rfl
    rw [hw] at hb
    have := getLast?_trim _ _ hb
    exact Bool.false_ne_true (this.symm.trans isBlank_space)
  have hvalues : headerPattern.values (collapse (e.1 ++ 0x3A :: 0x20 :: e.2)) =
      some [e.1, e.2] := by
    rw [hw, collapse_line he.name w, ← hw]
    exact headerPattern_line he.ne_nil he.name hlast
  have hvalue : readValue C e.2 s conn = .ok (e.2, s, conn) := by
    rw [readValue.eq_def, hblank]
    rfl
  have hrest : readHeaders C (addHeader H (headerName e.1) e.2) (encode l rest) =
      headersFrom C (addHeader H (headerName e.1) e.2) s conn := by
    rw [readHeaders, hnext]
  rw [hrest, readHeaders, encode_cons, hline]
  change headersFrom C H _ _ = _
  rw [headersFrom.eq_def, if_neg hne, hvalues]
  dsimp only
  split
  · rename_i h
    cases hnext.symm.trans h
    split
    · rename_i h
      cases hvalue.symm.trans h
      rfl
    · rename_i h
      cases hvalue.symm.trans h
  · rename_i h
    cases hnext.symm.trans h

/-- All headers are read, and nothing of what comes after them. -/
theorem readHeaders_encode (H : Headers) (hl : ∀ e ∈ l, Written e) :
    readHeaders C H (encode l rest) =
      .ok (l.foldl (fun H e => addHeader H (headerName e.1) e.2) H, rest) := by
  induction l generalizing H with
  | nil =>
      have hline : C.readline (encode [] rest) = some ([], rest) := readline_empty rest
      rw [readHeaders, hline]
      exact (headersFrom.eq_def ..).trans (if_pos rfl)
  | cons e l ih =>
      obtain ⟨he, hl⟩ := List.forall_mem_cons.mp hl
      rw [readHeaders_cons H he hl, ih _ hl, List.foldl_cons]

/-- Headers with different names are put beside each other. -/
theorem foldl_addHeader {H : Headers} (hnodup : (l.map fun e => headerName e.1).Nodup)
    (hnone : ∀ e ∈ l, H (headerName e.1) = none) (k : Bytes) :
    l.foldl (fun H e => addHeader H (headerName e.1) e.2) H k =
      ((l.find? fun e => headerName e.1 = k).map Prod.snd).or (H k) := by
  induction l generalizing H with
  | nil => rfl
  | cons e l ih =>
      rw [List.map_cons, List.nodup_cons] at hnodup
      obtain ⟨he, hl⟩ := List.forall_mem_cons.mp hnone
      have hadd (k : Bytes) : addHeader H (headerName e.1) e.2 k =
          if k = headerName e.1 then some e.2 else H k := by
        rw [addHeader, he, update_apply]
        rfl
      have hnone' : ∀ e' ∈ l, addHeader H (headerName e.1) e.2 (headerName e'.1) = none := by
        intro e' he'
        rw [hadd, if_neg, hl e' he']
        intro heq
        exact hnodup.1 (List.mem_map.mpr ⟨e', he', heq⟩)
      rw [List.foldl_cons, ih hnodup.2 hnone', hadd]
      by_cases hk : headerName e.1 = k
      · have hfind : l.find? (fun e => headerName e.1 = k) = none := by
          rw [List.find?_eq_none]
          intro e' he' heq
          rw [decide_eq_true_eq] at heq
          exact hnodup.1 (List.mem_map.mpr ⟨e', he', heq.trans hk.symm⟩)
        rw [hfind, if_pos hk.symm, List.find?_cons_of_pos (by simpa using hk)]
        rfl
      · rw [if_neg (Ne.symm hk), List.find?_cons_of_neg (by simpa using hk)]

end Read

/-! ## Writing and reading -/

section Tables

variable {T : Table Bytes Bytes}

theorem mem_keys_of_get {k v : Bytes} (hv : T.get k = some v) : k ∈ T.keys := by
  rw [T.mem_keys, hv]
  rfl

theorem mem_entries (h : HeaderTable T) {e : Bytes × Bytes} :
    e ∈ entries T ↔ ∃ k v, T.get k = some v ∧ e = (formatHeaderName k, headerValue v) := by
  rw [entries, List.mem_filterMap]
  constructor
  · rintro ⟨n, hn, he⟩
    obtain ⟨k, hk, rfl⟩ := mem_writtenNames.mp hn
    rw [writtenValue, h.headerName_eq hk, Option.map_map, Option.map_eq_some_iff] at he
    obtain ⟨v, hv, rfl⟩ := he
    exact ⟨k, v, hv, rfl⟩
  · rintro ⟨k, v, hv, rfl⟩
    have hk := mem_keys_of_get hv
    refine ⟨_, mem_writtenNames.mpr ⟨k, hk, rfl⟩, ?_⟩
    rw [writtenValue, h.headerName_eq hk, hv]
    rfl

/-- Normalizing makes no line breaks. -/
theorem headerValue_line {v : Bytes} (h : 0x0D ∉ v ∧ 0x0A ∉ v) :
    0x0D ∉ headerValue v ∧ 0x0A ∉ headerValue v := by
  constructor
  · intro hb
    obtain hb | hb := mem_normalize hb
    · exact h.1 hb
    · exact absurd hb (by decide)
  · intro hb
    obtain hb | hb := mem_normalize hb
    · exact h.2 hb
    · exact absurd hb (by decide)

/-- What is written of a table of headers can be read. -/
theorem HeaderTable.written (h : HeaderTable T) : ∀ e ∈ entries T, Written e := by
  intro e he
  obtain ⟨k, v, hv, rfl⟩ := (mem_entries h).mp he
  have hk := h.keys k (mem_keys_of_get hv)
  exact ⟨formatHeaderName_ne_nil hk.1, isNameByte_of_mem hk.2, ⟨v, rfl⟩,
    headerValue_line (h.values k v hv)⟩

theorem sublist_entries (g : Bytes → Option Bytes) (f : Bytes → Bytes) (l : List Bytes) :
    ((l.filterMap fun n => (g n).map fun v => (n, v)).map fun e => f e.1).Sublist (l.map f) := by
  induction l with
  | nil => exact List.Sublist.slnil
  | cons n l ih =>
      rw [List.filterMap_cons]
      cases g n with
      | none => exact ih.cons _
      | some v => exact ih.cons_cons _

theorem nodup_entries (h : HeaderTable T) :
    ((entries T).map fun e => headerName e.1).Nodup := by
  have hnames : ((writtenNames T).map headerName).Nodup := by
    have hperm : ((writtenNames T).map headerName).Perm
        ((T.keys.map formatHeaderName).map headerName) :=
      (List.mergeSort_perm _ _).map _
    have hkeys : (T.keys.map formatHeaderName).map headerName = T.keys := by
      rw [List.map_map]
      conv_rhs => rw [← List.map_id T.keys]
      apply List.map_congr_left
      intro k hk
      exact h.headerName_eq hk
    rw [hperm.nodup_iff, hkeys]
    exact T.nodup
  exact (sublist_entries _ _ _).nodup hnames

/-- The values of the table are read, normalized. -/
theorem foldl_entries (h : HeaderTable T) (k : Bytes) :
    (entries T).foldl (fun H e => addHeader H (headerName e.1) e.2) (fun _ => none) k =
      (T.get k).map headerValue := by
  rw [foldl_addHeader (nodup_entries h) (fun _ _ => rfl), Option.or_none]
  cases hfind : (entries T).find? fun e => headerName e.1 = k with
  | none =>
      rw [List.find?_eq_none] at hfind
      cases hv : T.get k with
      | none => rfl
      | some v =>
          have hk := mem_keys_of_get hv
          have := hfind _ ((mem_entries h).mpr ⟨k, v, hv, rfl⟩)
          exact absurd (h.headerName_eq hk) (by simpa using this)
  | some e =>
      obtain ⟨k', v, hv, rfl⟩ := (mem_entries h).mp (List.mem_of_find?_eq_some hfind)
      have hk' := mem_keys_of_get hv
      have hsame := List.find?_some hfind
      rw [decide_eq_true_eq, h.headerName_eq hk'] at hsame
      rw [← hsame, hv]
      rfl

/-- A table with the values normalized is written as the table is. -/
theorem entries_eq {T' : Table Bytes Bytes} (hT : ∀ k, T'.get k = (T.get k).map headerValue) :
    entries T' = entries T := by
  have hkeys : T'.keys.Perm T.keys := by
    rw [List.perm_ext_iff_of_nodup T'.nodup T.nodup]
    intro k
    rw [T'.mem_keys, T.mem_keys, hT, Option.isSome_map]
  have hnames : writtenNames T' = writtenNames T := sortNames_eq_of_perm (hkeys.map _)
  have hvalues : writtenValue T' = writtenValue T := by
    funext n
    rw [writtenValue, writtenValue, hT, Option.map_map]
    refine congrArg (fun f => (T.get (headerName n)).map f) ?_
    funext v
    exact normalize_normalize isBlank_space v
  rw [entries, entries, hnames, hvalues]

theorem HeaderTable.normalized (h : HeaderTable T) {T' : Table Bytes Bytes}
    (hT : ∀ k, T'.get k = (T.get k).map headerValue) : HeaderTable T' where
  keys k hk := by
    apply h.keys k
    rw [T.mem_keys]
    rwa [T'.mem_keys, hT, Option.isSome_map] at hk
  values k v hv := by
    rw [hT, Option.map_eq_some_iff] at hv
    obtain ⟨w, hw, rfl⟩ := hv
    exact headerValue_line (h.values k w hw)

end Tables

/-- Headers that are written are read back under the same keys with their values
normalized, up to the end of what was written; and these are written as the same lines. -/
theorem readHeaders_writeHeaders (C : Connection) {T : Table Bytes Bytes} (h : HeaderTable T)
    (order : Order Bytes) (rest : Bytes) :
    ∃ strings headers, writeHeaders order T = .ok strings ∧
      readHeaders C (fun _ => none) (strings.flatten ++ rest) = .ok (headers, rest) ∧
      (∀ k, headers k = (T.get k).map headerValue) ∧
      ∀ (order' : Order Bytes) (T' : Table Bytes Bytes), T'.get = headers →
        writeHeaders order' T' = .ok strings := by
  have hcrlf : lit "\r\n" = [0x0D, 0x0A] := by decide
  have hbytes : (((entries T).map fun e => formatHeader e.1 e.2) ++ [lit "\r\n"]).flatten ++
      rest = encode (entries T) rest := by
    rw [encode, hcrlf, List.flatten_append, List.append_assoc]
    rfl
  refine ⟨_, _, writeHeaders_eq h order, ?_, foldl_entries h, ?_⟩
  · rw [hbytes, readHeaders_encode _ h.written]
  · intro order' T' hT'
    have hget (k : Bytes) : T'.get k = (T.get k).map headerValue := by
      rw [hT']
      exact foldl_entries h k
    rw [writeHeaders_eq (h.normalized hget) order', entries_eq hget]

/-- A header of one letter, with blanks around its value. -/
def taggedHeaders : Table Bytes Bytes := Table.empty.set [0x74] [0x20, 0x61, 0x09]

theorem readHeaders_taggedHeaders :
    ∃ strings headers, writeHeaders ⟨id, fun _ => .rfl⟩ taggedHeaders = .ok strings ∧
      readHeaders bufferConnection (fun _ => none) (strings.flatten ++ []) =
        .ok (headers, []) ∧
      (∀ k, headers k = (taggedHeaders.get k).map headerValue) ∧
      ∀ (order' : Order Bytes) (T' : Table Bytes Bytes), T'.get = headers →
        writeHeaders order' T' = .ok strings := by
  apply readHeaders_writeHeaders
  have hkeys : taggedHeaders.keys = [[0x74]] := rfl
  have hget : taggedHeaders.get [0x74] = some [0x20, 0x61, 0x09] := get_set_self _ _ _
  constructor
  · intro k hk
    rw [hkeys, List.mem_singleton] at hk
    subst hk
    exact ⟨List.cons_ne_nil _ _, by simp [isKeyByte]⟩
  · intro k v hv
    have hk := mem_keys_of_get hv
    rw [hkeys, List.mem_singleton] at hk
    subst hk
    obtain rfl := Option.some.inj (hget.symm.trans hv)
    simp

end LuaAttic.Http
