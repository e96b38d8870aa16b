import Mathlib.Data.Fintype.Card
import LuaAttic.Serialization.KeyOrder

/-!
# Tables inside themselves

The marks are the tables that are being written, until a comparison of keys formats one of
these.  Where no comparison does, the depth is less than the number of tables and no table
is written inside itself.
-/

namespace LuaAttic.Serialization

open LuaAttic.Lua LuaAttic.Support

variable {T : Type}

/-! ## Writing text -/

/-- A program that returns and leaves the marks and the calls as they are. -/
def Quiet {α : Type} (m : Writer T α) : Prop :=
  ∀ s, ∃ a s', m s = .ok a s' ∧
    s'.entries = s.entries ∧ s'.parents = s.parents ∧ s'.writing = s.writing

section Quiet

variable {α β : Type} {m : Writer T α} (pf : Formatter) (o : Options T)

theorem Quiet.pure (a : α) : Quiet (Pure.pure a : Writer T α) := fun s => ⟨a, s, rfl, rfl, rfl, rfl⟩

theorem Quiet.bind {f : α → Writer T β} (hm : Quiet m) (hf : ∀ a, Quiet (f a)) :
    Quiet (m >>= f) := by
  intro s
  obtain ⟨a, s', hok, hentries, hparents, hwriting⟩ := hm s
  obtain ⟨b, s'', hok', hentries', hparents', hwriting'⟩ := hf a s'
  exact ⟨b, s'', by rw [bind_of_ok hok, hok'], hentries'.trans hentries,
    hparents'.trans hparents, hwriting'.trans hwriting⟩

theorem Quiet.get_bind {f : State T → Writer T α} (hf : ∀ st, Quiet (f st)) :
    Quiet (get >>= f) := fun s => hf s s

theorem Quiet.ite {p : Prop} [Decidable p] {m' : Writer T α} (hm : Quiet m) (hm' : Quiet m') :
    Quiet (if p then m else m') := by
  split_ifs
  · exact hm
  · exact hm'

theorem quiet_modify {g : State T → State T} (hentries : ∀ s, (g s).entries = s.entries)
    (hparents : ∀ s, (g s).parents = s.parents) (hwriting : ∀ s, (g s).writing = s.writing) :
    Quiet (modify g : Writer T Unit) :=
  fun s => ⟨(), g s, rfl, hentries s, hparents s, hwriting s⟩

theorem quiet_setIndent (n : ℕ) :
    Quiet (modify fun st => { st with indent := n } : Writer T Unit) :=
  quiet_modify (fun _ => rfl) (fun _ => rfl) fun _ => rfl

theorem quiet_write (s : Bytes) : Quiet (write s : Writer T Unit) :=
  fun _ => ⟨(), _, rfl, rfl, rfl, rfl⟩

theorem quiet_writeline : Quiet (writeline : Writer T Unit) :=
  fun _ => ⟨(), _, rfl, rfl, rfl, rfl⟩

theorem quiet_indentinline (count : Option ℕ) : Quiet (indentinline o count) :=
  Quiet.get_bind fun _ =>
    Quiet.ite (quiet_writeline.bind fun _ => quiet_write _) (Quiet.pure ())

theorem quiet_indenttree (depth : ℕ) : Quiet (indenttree o depth) :=
  Quiet.ite (quiet_writeline.bind fun _ => quiet_write _) (Quiet.pure ())

theorem quiet_writeStr (s : Bytes) : Quiet (writeStr pf o s) :=
  (quiet_write _).bind fun _ => (quiet_write _).bind fun _ => quiet_write _

theorem quiet_writePieces (depth : ℕ) (pieces : List Bytes) :
    Quiet (writePieces pf o depth pieces) := by
  induction pieces with
  | nil => exact Quiet.pure ()
  | cons s rest ih =>
      cases rest with
      | nil => exact quiet_writeStr pf o s
      | cons s' rest =>
          exact (quiet_writeStr pf o s).bind fun _ => (quiet_write _).bind fun _ =>
            (quiet_indenttree o depth).bind fun _ => (quiet_indentinline o none).bind fun _ => ih

theorem quiet_writeString (depth : ℕ) (s : Bytes) : Quiet (writeString pf o depth s) :=
  Quiet.ite (quiet_writePieces pf o depth _) (quiet_writeStr pf o s)

end Quiet

/-! ## Programs that keep the marks right -/

/-- The calls that are recorded stay. -/
def Records (s s' : State T) : Prop := s.entries <:+ s'.entries

instance : IsPreorder (State T) Records where
  refl _ := List.suffix_rfl
  trans _ _ _ h h' := h.trans h'

theorem Records.of_eq {s s' : State T} (h : s'.entries = s.entries) : Records s s' := by
  rw [Records, h]

variable {o : Options T}

/-- A comparison has formatted a table that is being written, and is marked. -/
def Caught (o : Options T) (s : State T) : Prop :=
  o.sorted = true ∧
    ∃ e ∈ s.entries, e.compared = true ∧ e.marked = true ∧ e.inside = true

/-- What is caught stays so. -/
theorem caught_of_records (s s' : State T) (hs : Records s s') (h : Caught o s) :
    Caught o s' := by
  obtain ⟨hsorted, e, he, hcaught⟩ := h
  exact ⟨hsorted, e, hs.subset he, hcaught⟩

variable [DecidableEq T]

/-- So many levels are left where the tables of a list are being written.  They are marked,
and no table that was marked or was being written has been written again. -/
structure Tidy (o : Options T) (left : ℕ) (w : List T) (s : State T) : Prop where
  nodup : w.Nodup
  depth : w.length + left = o.maxdepth
  writing : s.writing = w
  parents : s.parents = w.toFinset
  clean : ∀ e ∈ s.entries, e.marked = false ∧ e.inside = false

/-- From a tidy state a program returns with a tidy one, unless a comparison is caught. -/
def SoundAt (o : Options T) (left : ℕ) (w : List T) {α : Type} (m : Writer T α)
    (s : State T) : Prop :=
  KeepsUnless Records (Caught o) (Tidy o left w) m s

def Sound (o : Options T) (left : ℕ) (w : List T) {α : Type} (m : Writer T α) : Prop :=
  ∀ s, SoundAt o left w m s

section Sound

variable {left : ℕ} {w : List T} {α β : Type} {m : Writer T α} {f : α → Writer T β}
  {s : State T}

theorem SoundAt.bind_ok (hm : SoundAt o left w m s)
    (hf : ∀ a s', m s = .ok a s' → SoundAt o left w (f a) s') :
    SoundAt o left w (m >>= f) s :=
  KeepsUnless.bind_ok caught_of_records hm hf

theorem SoundAt.bind (hm : SoundAt o left w m s) (hf : ∀ a, Sound o left w (f a)) :
    SoundAt o left w (m >>= f) s := hm.bind_ok fun a s' _ => hf a s'

theorem Sound.bind (hm : Sound o left w m) (hf : ∀ a, Sound o left w (f a)) :
    Sound o left w (m >>= f) := fun s => (hm s).bind hf

theorem Sound.get_bind {f : State T → Writer T α} (hf : ∀ s, SoundAt o left w (f s) s) :
    Sound o left w (get >>= f) := hf

theorem Tidy.of_eq {s' : State T} (hs : Tidy o left w s) (hentries : s'.entries = s.entries)
    (hparents : s'.parents = s.parents) (hwriting : s'.writing = s.writing) :
    Tidy o left w s' where
  nodup := hs.nodup
  depth := hs.depth
  writing := hwriting.trans hs.writing
  parents := hparents.trans hs.parents
  clean := by
    rw [hentries]
    exact hs.clean

theorem Quiet.sound (hm : Quiet m) : Sound o left w m := by
  intro s
  obtain ⟨a, s', hok, hentries, hparents, hwriting⟩ := hm s
  exact KeepsUnless.of_ok hok (Records.of_eq hentries) fun hs =>
    hs.of_eq hentries hparents hwriting

theorem Sound.pure (a : α) : Sound o left w (Pure.pure a : Writer T α) := (Quiet.pure a).sound

theorem Sound.ite {p : Prop} [Decidable p] {m' : Writer T α} (hm : Sound o left w m)
    (hm' : Sound o left w m') : Sound o left w (if p then m else m') := by
  split_ifs
  · exact hm
  · exact hm'

end Sound

/-- Any table is written soundly to compare keys, and else one that is not being written. -/
def SoundTables (o : Options T) (left : ℕ) (table : Bool → T → Writer T Unit) : Prop :=
  ∀ w compared t, (compared = true ∧ o.sorted = true ∨ t ∉ w) →
    Sound o left w (table compared t)

/-! ## Pairs -/

/-- A value that is not one of the tables of a list. -/
def Value.Outside (w : List T) (v : Value T) : Prop := ∀ t ∈ w, v ≠ .table t

omit [DecidableEq T] in
theorem outside_nil (v : Value T) : v.Outside [] := fun _ ht => absurd ht List.not_mem_nil

theorem Tidy.outside {left : ℕ} {w : List T} {s : State T} (hs : Tidy o left w s) {v : Value T}
    (hv : s.marks v = false) : v.Outside w := by
  rintro t ht rfl
  have hmem : t ∈ s.parents := by
    rw [hs.parents]
    exact List.mem_toFinset.mpr ht
  rw [State.marks, decide_eq_true hmem] at hv
  cases hv

theorem Tidy.outside_replaced {left : ℕ} {w : List T} {s : State T} (hs : Tidy o left w s)
    (v : Value T) : (s.replaced o v).Outside w := by
  rw [State.replaced]
  split_ifs with hv
  · intro t _ h
    cases h
  · exact hs.outside (Bool.eq_false_iff.mpr hv)

section Pairs

variable (pf : Formatter) {left : ℕ} {table : Bool → T → Writer T Unit}
  (htable : SoundTables o left table) (depth : ℕ) {w : List T}

include htable

theorem sound_writeValue {compared : Bool} {v : Value T}
    (hv : compared = true ∧ o.sorted = true ∨ v.Outside w) :
    Sound o left w (writeValue pf o table depth compared v) := by
  cases v with
  | nil => exact (quiet_write _).sound
  | boolean b => exact (quiet_write _).sound
  | number x => exact (quiet_write _).sound
  | string s => exact (quiet_writeString pf o depth s).sound
  | table t => exact htable w compared t (hv.imp_right fun h ht => h t ht rfl)

theorem sound_writeKey {k : Value T} (hk : k.Outside w) :
    Sound o left w (writeKey pf o table depth k) := by
  have hvalue : Sound o left w (writeValue pf o table depth false k) :=
    sound_writeValue pf htable depth (Or.inr hk)
  have hbrackets : Sound o left w (do
      write (lit "[")
      writeValue pf o table depth false k
      write (lit "]")
      write o.equals) :=
    (quiet_write _).sound.bind fun _ => hvalue.bind fun _ =>
      ((quiet_write _).bind fun _ => quiet_write _).sound
  cases k with
  | nil => exact Sound.pure ()
  | boolean b => exact hbrackets
  | number x => exact hbrackets
  | string s => exact ((quiet_write _).bind fun _ => quiet_write _).sound.ite hbrackets
  | table t => exact hbrackets

theorem sound_writeItem {k v : Value T} (hk : k.Outside w) (hv : v.Outside w) (first : Bool)
    (count : ℕ) : Sound o left w (writeItem pf o table depth k v first count) := by
  have hcomma : Quiet (if first then pure () else do
      write o.comma
      indentinline o (some count)) :=
    (Quiet.pure ()).ite ((quiet_write _).bind fun _ => quiet_indentinline o _)
  exact hcomma.sound.bind fun _ => (quiet_indenttree o depth).sound.bind fun _ =>
    (sound_writeKey pf htable depth hk).bind fun _ =>
      sound_writeValue pf htable depth (Or.inr hv)

theorem sound_writePair (hcycles : o.cycles ≠ .abort) (k v : Value T) (first : Bool)
    (count : ℕ) : Sound o left w (writePair pf o table depth k v first count) := by
  have hitem (w : List T) {k v : Value T} (hk : k.Outside w) (hv : v.Outside w) :
      Sound o left w (do
        writeItem pf o table depth k v first count
        return true) :=
    (sound_writeItem pf htable depth hk hv first count).bind fun _ => Sound.pure true
  refine Sound.get_bind fun s => ?_
  have hrecords (k v : Value T) : Relates Records (do
      writeItem pf o table depth k v first count
      return true) s := (hitem [] (outside_nil k) (outside_nil v) s).1
  by_cases hmarks : (s.marks k || s.marks v) = true
  · rw [if_pos hmarks]
    cases hmode : o.cycles with
    | abort => exact absurd hmode hcycles
    | skip => exact Sound.pure false s
    | replace =>
        exact ⟨hrecords _ _, fun hs =>
          (hitem w (hs.outside_replaced k) (hs.outside_replaced v) s).2 hs⟩
  · rw [if_neg hmarks]
    rw [Bool.not_eq_true, Bool.or_eq_false_iff] at hmarks
    exact ⟨hrecords k v, fun hs => (hitem w (hs.outside hmarks.1) (hs.outside hmarks.2) s).2 hs⟩

end Pairs

/-! ## Comparing keys -/

section Comparing

variable (pf : Formatter) (heap : Heap T) {left : ℕ} {table : Bool → T → Writer T Unit}
  (htable : SoundTables o left table) (depth : ℕ) {w : List T}

include htable

theorem sound_pformatRecursive {compared : Bool} {v : Value T}
    (hv : compared = true ∧ o.sorted = true ∨ v.Outside w) :
    Sound o left w (pformatRecursive pf o table depth compared v) := by
  refine Sound.get_bind fun s => SoundAt.bind (Quiet.sound ?_ s) fun _ =>
    (sound_writeValue pf htable depth hv).bind fun _ => Sound.get_bind fun s' =>
      SoundAt.bind (Quiet.sound ?_ s') fun _ => Sound.pure _
  · exact quiet_modify (fun _ => rfl) (fun _ => rfl) fun _ => rfl
  · exact quiet_modify (fun _ => rfl) (fun _ => rfl) fun _ => rfl

theorem sound_repr (hsorted : o.sorted = true) (v : Value T) :
    Sound o left w (repr pf o table depth v) := by
  refine Sound.get_bind fun s => ?_
  cases s.reprs.lookup v with
  | some r => exact Sound.pure r s
  | none =>
      refine SoundAt.bind (sound_pformatRecursive pf htable depth (Or.inl ⟨rfl, hsorted⟩) s)
        fun r => Sound.bind (Quiet.sound ?_) fun _ => Sound.pure r
      exact quiet_modify (fun _ => rfl) (fun _ => rfl) fun _ => rfl

theorem sound_lessThan (hsorted : o.sorted = true) (t : T) (a b : Value T) :
    Sound o left w (lessThan pf o heap table depth t a b) := by
  have hrepr (v : Value T) : Sound o left w (repr pf o table depth v) :=
    sound_repr pf htable depth hsorted v
  unfold lessThan
  refine Sound.ite (Sound.pure _) ?_
  split
  · exact Sound.pure _
  · exact (hrepr _).bind fun _ => (hrepr _).bind fun _ => Sound.ite
      ((hrepr _).bind fun _ => (hrepr _).bind fun _ => Sound.pure _) (Sound.pure _)
  · exact Sound.pure _
  · exact Sound.ite (Sound.pure _) (Sound.pure _)
  · exact Sound.pure _

theorem sound_run (hsorted : o.sorted = true) (t : T) (q : Sorting (Value T)) :
    Sound o left w (q.run (lessThan pf o heap table depth t)) := by
  induction q with
  | sorted l => exact Sound.pure (some l)
  | failed => exact Sound.pure none
  | asks a b next ih => exact (sound_lessThan pf heap htable depth hsorted t a b).bind ih

end Comparing

/-! ## The order of keys -/

/-- A function gives the texts that are kept. -/
def Knows (text : Value T → Bytes) (s : State T) : Prop :=
  ∀ v r, s.reprs.lookup v = some r → text v = r

section Answers

variable {pf : Formatter} {heap : Heap T} {table : Bool → T → Writer T Unit} {depth : ℕ}
  {text : Value T → Bytes} {s s' : State T}

omit [DecidableEq T] in
theorem reprs_pformatRecursive {compared : Bool} {v : Value T} {r : Bytes}
    (h : pformatRecursive pf o table depth compared v s = .ok r s') : s'.reprs = s.reprs := by
  rw [pformatRecursive, get_bind_apply, modify_bind_apply] at h
  obtain ⟨_, _, -, h⟩ := exists_of_bind_ok h
  rw [get_bind_apply, modify_bind_apply] at h
  cases h
  rfl

theorem Knows.of_repr {v : Value T} {r : Bytes} (hknows : Knows text s')
    (h : repr pf o table depth v s = .ok r s') : text v = r ∧ Knows text s := by
  rw [repr, get_bind_apply] at h
  cases hlookup : s.reprs.lookup v with
  | some r' =>
      rw [hlookup] at h
      cases h
      exact ⟨hknows v r hlookup, hknows⟩
  | none =>
      rw [hlookup] at h
      obtain ⟨r', s1, hformat, h⟩ := exists_of_bind_ok h
      rw [modify_bind_apply] at h
      cases h
      have hreprs : s1.reprs = s.reprs := reprs_pformatRecursive hformat
      refine ⟨hknows v r ?_, ?_⟩
      · exact List.lookup_cons_self
      · intro x y hx
        apply hknows x y
        have hne : (x == v) = false := by
          rw [beq_eq_false_iff_ne]
          rintro rfl
          rw [hlookup] at hx
          cases hx
        change List.lookup x ((v, r) :: s1.reprs) = some y
        rw [List.lookup_cons, hne, hreprs, hx]

/-- Only for tables the order function needs texts. -/
theorem lessThan_eq_pure (text : Value T → Bytes) {t : T} {a b : Value T}
    (hab : ∀ ta tb, a = .table ta → b ≠ .table tb) :
    lessThan pf o heap table depth t a b = pure (keyLess pf heap text t a b) := by
  unfold lessThan keyLess
  by_cases htype : a.type ≠ b.type
  · rw [if_pos htype, if_pos htype]
  · rw [if_neg htype, if_neg htype]
    cases a <;> cases b <;>
      first | rfl | exact absurd rfl (hab _ _ rfl) | exact (apply_ite Pure.pure _ _ _).symm

/-- An answer is that of the order function for the texts that are kept. -/
theorem Knows.of_lessThan {t : T} {a b : Value T} {answer : Bool} (hknows : Knows text s')
    (h : lessThan pf o heap table depth t a b s = .ok answer s') :
    keyLess pf heap text t a b = answer ∧ Knows text s := by
  by_cases hab : ∃ ta tb, a = .table ta ∧ b = .table tb
  · obtain ⟨ta, tb, rfl, rfl⟩ := hab
    have htype : ¬ (Value.table ta).type ≠ (Value.table tb).type := not_not.mpr rfl
    rw [lessThan, if_neg htype] at h
    obtain ⟨ra, s1, hra, h⟩ := exists_of_bind_ok h
    obtain ⟨rb, s2, hrb, h⟩ := exists_of_bind_ok h
    have hkeys (hknows : Knows text s2) :
        text (.table ta) = ra ∧ text (.table tb) = rb ∧ Knows text s := by
      obtain ⟨hb, hknows⟩ := hknows.of_repr hrb
      obtain ⟨ha, hknows⟩ := hknows.of_repr hra
      exact ⟨ha, hb, hknows⟩
    rw [keyLess, if_neg htype]
    by_cases heq : ra = rb
    · rw [if_pos heq] at h
      obtain ⟨va, s3, hva, h⟩ := exists_of_bind_ok h
      obtain ⟨vb, s4, hvb, h⟩ := exists_of_bind_ok h
      cases h
      obtain ⟨hvb, hknows⟩ := hknows.of_repr hvb
      obtain ⟨hva, hknows⟩ := hknows.of_repr hva
      obtain ⟨ha, hb, hknows⟩ := hkeys hknows
      simp only [ha, hb, heq, hva, hvb, if_true]
      exact ⟨trivial, hknows⟩
    · rw [if_neg heq] at h
      cases h
      obtain ⟨ha, hb, hknows⟩ := hkeys hknows
      simp only [ha, hb, heq, if_false]
      exact ⟨trivial, hknows⟩
  · push Not at hab
    rw [lessThan_eq_pure text hab] at h
    cases h
    exact ⟨rfl, hknows⟩

end Answers

section Sorting

variable (pf : Formatter) (heap : Heap T) {sort : List (Value T) → Sorting (Value T)}
  (hsort : Sorting.Total sort) {left : ℕ} {table : Bool → T → Writer T Unit}
  (htable : SoundTables o left table) (depth : ℕ) {w : List T}

include hsort

/-- Sorting keys does not fail. -/
theorem run_ne_none {t : T} {keylist : List (Value T)} (hnodup : keylist.Nodup)
    (hnan : .number .nan ∉ keylist) {s s' : State T} {r : Option (List (Value T))}
    (h : (sort keylist).run (lessThan pf o heap table depth t) s = .ok r s') : r ≠ none := by
  have heval := Sorting.eval_of_run
    (fun s a b answer => ∀ text, Knows text s → keyLess pf heap text t a b = answer)
    (fun a b s answer s' h text hknows => (hknows.of_lessThan h).1)
    (fun a b s answer s' h x y r hr text hknows => hr text (hknows.of_lessThan h).2) h
  let text (v : Value T) : Bytes := (s'.reprs.lookup v).getD []
  have htext : Knows text s' := fun v r hr => by simp only [text, hr, Option.getD_some]
  rw [← heval.2 (keyLess pf heap text t) fun x y answer hanswer => hanswer text htext]
  exact hsort keylist _ hnodup (ordersOn_keyLess pf heap text t hnan)

include htable

theorem sound_sortKeys (hsorted : o.sorted = true) (t : T) {keylist : List (Value T)}
    (hnodup : keylist.Nodup) (hnan : .number .nan ∉ keylist) :
    Sound o left w (sortKeys pf o heap sort table depth t keylist) := by
  refine fun s => (sound_run pf heap htable depth hsorted t _ s).bind_ok fun r s' hrun => ?_
  cases r with
  | some keylist => exact Sound.pure keylist s'
  | none => exact absurd rfl (run_ne_none pf heap hsort depth hnodup hnan hrun)

end Sorting

/-! ## Tables -/

section Tables

variable (pf : Formatter) (heap : Heap T) {sort : List (Value T) → Sorting (Value T)}
  (hsort : Sorting.Total sort) {left : ℕ} {table : Bool → T → Writer T Unit}
  (hcycles : o.cycles ≠ .abort)
  (htable : SoundTables o left table) (depth : ℕ) {w : List T}

include hcycles htable

theorem sound_writeArray (startIndent k : ℕ) (elements : List (Value T)) (items : Items) :
    Sound o left w (writeArray pf o table depth startIndent k elements items) := by
  induction elements generalizing k items with
  | nil => exact Sound.pure items
  | cons v rest ih =>
      refine Sound.get_bind fun s => Sound.ite ?_ (Sound.pure _) s
      refine (quiet_setIndent startIndent).sound.bind fun _ =>
        (sound_writePair pf htable depth hcycles _ v _ _).bind fun written => ?_
      exact Sound.ite (ih _ _) (Sound.pure _)

theorem sound_writeKeys (t : T) (keys : List (Value T)) (items : Items) :
    Sound o left w (writeKeys pf o heap table depth t keys items) := by
  induction keys generalizing items with
  | nil => exact Sound.pure items
  | cons k rest ih =>
      refine Sound.get_bind fun s => Sound.ite ?_ (ih items) s
      exact (sound_writePair pf htable depth hcycles k _ _ _).bind fun written => ih _

theorem sound_writeSorted (startIndent : ℕ) (t : T) (keys : List (Value T)) (items : Items) :
    Sound o left w (writeSorted pf o heap table depth startIndent t keys items) := by
  induction keys generalizing items with
  | nil => exact Sound.pure items
  | cons k rest ih =>
      exact (quiet_setIndent startIndent).sound.bind fun _ =>
        (sound_writePair pf htable depth hcycles k _ _ _).bind fun written => ih _

include hsort

theorem sound_writeItems (startIndent : ℕ) (t : T) :
    Sound o left w (writeItems pf o heap sort table depth startIndent t) := by
  refine (sound_writeArray pf hcycles htable depth _ _ _ _).bind fun items => ?_
  by_cases hsorted : o.sorted = true
  · rw [if_pos hsorted]
    refine Sound.get_bind fun s => ?_
    refine SoundAt.bind (sound_sortKeys pf heap hsort htable depth hsorted t ?_ ?_ s)
      fun keylist => sound_writeSorted pf heap hcycles htable depth _ t keylist items
    · exact (heap.tables t).nodup.filter _
    · exact fun hmem => heap.key_ne_nan t (List.mem_of_mem_filter hmem)
  · rw [if_neg hsorted]
    exact sound_writeKeys pf heap hcycles htable depth t _ items

end Tables

/-! ## Marks -/

section Marks

variable {left : ℕ} {w : List T} {t : T} {s : State T}

theorem tidy_initial : Tidy o o.maxdepth [] (State.initial : State T) where
  nodup := List.nodup_nil
  depth := Nat.zero_add _
  writing := rfl
  parents := rfl
  clean := fun _ he => absurd he List.not_mem_nil

theorem Tidy.not_marked (hs : Tidy o left w s) (ht : t ∉ w) : t ∉ s.parents := by
  rw [hs.parents]
  exact fun h => ht (List.mem_toFinset.mp h)

/-- A table that is not being written is written after its brace. -/
theorem Tidy.opened (hs : Tidy o (left + 1) w s) (ht : t ∉ w) {compared : Bool} {s' : State T}
    (hentries : s'.entries = (s.enter compared t).entries)
    (hparents : s'.parents = (s.enter compared t).parents)
    (hwriting : s'.writing = (s.enter compared t).writing) :
    Tidy o left (t :: w) (s'.mark t) where
  nodup := List.nodup_cons.mpr ⟨ht, hs.nodup⟩
  depth := by
    rw [List.length_cons, ← hs.depth, Nat.add_right_comm, Nat.add_assoc]
  writing := by
    change s'.writing = t :: w
    rw [hwriting, State.enter, hs.writing]
  parents := by
    change insert t s'.parents = (t :: w).toFinset
    rw [hparents, State.enter, hs.parents, List.toFinset_cons]
  clean := by
    intro e he
    change e ∈ s'.entries at he
    rw [hentries, State.enter] at he
    rcases List.mem_cons.mp he with rfl | he
    · exact ⟨decide_eq_false (hs.not_marked ht), decide_eq_false (hs.writing ▸ ht)⟩
    · exact hs.clean e he

/-- The table that was opened last is closed. -/
theorem Tidy.closed (hs : Tidy o left (t :: w) s) {s' : State T}
    (hentries : s'.entries = s.entries) (hparents : s'.parents = s.parents.erase t)
    (hwriting : s'.writing = s.writing) : Tidy o (left + 1) w s'.leave where
  nodup := (List.nodup_cons.mp hs.nodup).2
  depth := by
    rw [← hs.depth, List.length_cons, Nat.add_right_comm, Nat.add_assoc]
  writing := by
    change s'.writing.tail = w
    rw [hwriting, hs.writing, List.tail_cons]
  parents := by
    change s'.parents = w.toFinset
    rw [hparents, hs.parents, List.toFinset_cons, Finset.erase_insert]
    exact fun h => (List.nodup_cons.mp hs.nodup).1 (List.mem_toFinset.mp h)
  clean := by
    intro e he
    exact hs.clean e (hentries ▸ he)

/-- The end of a table takes its mark off, and nothing raises. -/
theorem ok_closeTable (o : Options T) (depth : ℕ) (t : T) (items : Items) (s : State T) :
    ∃ s' : State T, closeTable o depth t items s = .ok () s'.leave ∧ s'.entries = s.entries ∧
      s'.parents = s.parents.erase t ∧ s'.writing = s.writing := by
  have hcomma : Quiet (if ¬ items.first ∧ o.endComma then write o.comma
      else pure () : Writer T Unit) :=
    (quiet_write _).ite (Quiet.pure ())
  have hindent : Quiet (do
      (if items.first then pure () else indenttree o (depth - 1))
      write (lit "\x7d")) :=
    ((Quiet.pure ()).ite (quiet_indenttree o _)).bind fun _ => quiet_write _
  obtain ⟨_, s1, hok1, hentries1, hparents1, hwriting1⟩ := hcomma s
  obtain ⟨_, s2, hok2, hentries2, hparents2, hwriting2⟩ := hindent (s1.unmark t)
  refine ⟨s2, ?_, hentries2.trans hentries1, ?_, hwriting2.trans hwriting1⟩
  · rw [closeTable, bind_of_ok hok1, modify_bind_apply, ← bind_assoc, bind_of_ok hok2]
    rfl
  · rw [hparents2, State.unmark, hparents1]

end Marks

theorem records_closeTable (o : Options T) (depth : ℕ) (t : T) (items : Items) (s : State T) :
    Relates Records (closeTable o depth t items) s := by
  obtain ⟨s', hok, hentries, -, -⟩ := ok_closeTable o depth t items s
  rw [Relates, finalState_of_ok hok]
  exact Records.of_eq hentries

/-! ## Levels -/

section Levels

variable (pf : Formatter) (heap : Heap T) {sort : List (Value T) → Sorting (Value T)}
  (hsort : Sorting.Total sort) {left : ℕ} {table : Bool → T → Writer T Unit}
  (hcycles : o.cycles ≠ .abort)
  (htable : SoundTables o left table) (depth : ℕ)

/-- What `write_table` does after the table is entered. -/
def writeBody (pf : Formatter) (o : Options T) (heap : Heap T)
    (sort : List (Value T) → Sorting (Value T)) (table : Bool → T → Writer T Unit) (depth : ℕ)
    (t : T) : Writer T Unit := do
  write (lit "\x7b")
  let st ← get
  modify (State.mark t)
  let items ← writeItems pf o heap sort table depth st.size t
  closeTable o depth t items

include hsort hcycles htable

theorem records_writeBody (t : T) (s : State T) :
    Relates Records (writeBody pf o heap sort table depth t) s := by
  have hwrite : Sound o left [] (write (lit "\x7b")) := (quiet_write _).sound
  refine (hwrite s).1.bind fun _ s1 _ => Relates.get_bind ?_
  have hmark : Relates Records (modify (State.mark t) : Writer T Unit) s1 := List.suffix_rfl
  refine hmark.bind fun _ s2 _ => Relates.bind ?_ fun items s3 _ =>
    records_closeTable o depth t items s3
  exact (sound_writeItems pf heap hsort hcycles htable depth s1.size t (w := []) s2).1

theorem ends_writeBody {w : List T} {t : T} (ht : t ∉ w) {compared : Bool} {s : State T}
    (hs : Tidy o (left + 1) w s) :
    Ends (writeBody pf o heap sort table depth t) (s.enter compared t)
      (fun _ s' => Caught o s' ∨ Tidy o (left + 1) w s') (Caught o) := by
  obtain ⟨_, s1, hok, hentries, hparents, hwriting⟩ :=
    quiet_write (lit "\x7b") (s.enter compared t)
  rw [writeBody, Ends, bind_of_ok hok, get_bind_apply, modify_bind_apply, ← Ends]
  have hitems := sound_writeItems pf heap hsort hcycles htable depth s1.size t (w := t :: w)
  refine ((hitems (s1.mark t)).2 (hs.opened ht hentries hparents hwriting)).bind ?_
  rintro items s2 (hcaught | htidy)
  · exact Ends.of_stays caught_of_records hcaught (records_closeTable o depth t items s2)
  · obtain ⟨s3, hok, hentries, hparents, hwriting⟩ := ok_closeTable o depth t items s2
    exact Ends.of_ok hok (Or.inr (htidy.closed hentries hparents hwriting))

end Levels

/-! ## Tables with given pairs -/

/-- A table that is set to pairs one after the other. -/
def ofPairs (pairs : List (Value T × Value T)) : Table (Value T) (Value T) :=
  pairs.foldl (fun t p => t.set p.1 p.2) .empty

theorem mem_of_get_ofPairs {pairs : List (Value T × Value T)} {k v : Value T}
    (h : (ofPairs pairs).get k = some v) : (k, v) ∈ pairs := by
  induction pairs using List.reverseRecOn with
  | nil => cases h
  | append_singleton pairs p ih =>
      rw [ofPairs, List.foldl_append, List.foldl_cons, List.foldl_nil] at h
      by_cases hk : k = p.1
      · subst hk
        rw [get_set_self] at h
        cases h
        exact List.mem_append_right pairs List.mem_cons_self
      · rw [get_set_of_ne hk] at h
        exact List.mem_append_left [p] (ih h)

/-- Tables with given pairs. -/
def Heap.ofPairs (pairs : T → List (Value T × Value T))
    (h : ∀ t, ∀ p ∈ pairs t, p.1 ≠ .nil ∧ p.1 ≠ .number .nan ∧ p.2 ≠ .nil) : Heap T where
  tables t := Serialization.ofPairs (pairs t)
  key_ne_nil t hmem := by
    obtain ⟨v, hv⟩ := Option.isSome_iff_exists.mp ((Table.mem_keys _ _).mp hmem)
    exact (h t _ (mem_of_get_ofPairs hv)).1 rfl
  key_ne_nan t hmem := by
    obtain ⟨v, hv⟩ := Option.isSome_iff_exists.mp ((Table.mem_keys _ _).mp hmem)
    exact (h t _ (mem_of_get_ofPairs hv)).2.1 rfl
  ne_nil t k hnil := (h t _ (mem_of_get_ofPairs hnil)).2.2 rfl

/-- Strings as they are, and all numbers the same. -/
def plainFormatter : Formatter where
  isIdentifier s := s.all isAlpha
  formatString s _ := s
  formatNumber _ := lit "0"

/-- A table that is a key of its own, with another key that is a table. -/
def selfKeyed : Heap (Fin 2) :=
  .ofPairs (fun t => if t = 0 then [(.table 0, .boolean true), (.table 1, .boolean true)] else [])
    (by decide)

/-- A table with two tables as keys, the first of which has it for a value. -/
def shared : Heap (Fin 3) :=
  .ofPairs (fun t => if t = 0 then [(.table 1, .boolean true), (.table 2, .table 1)]
    else if t = 1 then [(.string (lit "a"), .table 0)] else []) (by decide)

/-! ## Runs -/

section Depth

variable [Fintype T] (pf : Formatter) (heap : Heap T) {sort : List (Value T) → Sorting (Value T)}
  (hsort : Sorting.Total sort) (hcycles : o.cycles ≠ .abort)
  (hcard : Fintype.card T < o.maxdepth)

include hsort hcycles hcard

/-- A table is written right unless it is being written and not to compare keys. -/
theorem sound_writeTable (left : ℕ) (w : List T) (compared : Bool) (t : T)
    (ht : compared = true ∧ o.sorted = true ∨ t ∉ w) :
    Sound o left w (writeTable pf o heap sort left compared t) := by
  induction left generalizing w compared t with
  | zero =>
      refine fun s => ⟨List.suffix_cons _ _, fun hs => ?_⟩
      have hle := hs.nodup.length_le_card
      have hdepth := hs.depth
      omega
  | succ left ih =>
      intro s
      have hbody := records_writeBody pf heap hsort hcycles ih (o.maxdepth - left) t
      have henter : Records s (s.enter compared t) := List.suffix_cons _ _
      constructor
      · exact trans_of Records henter (hbody (s.enter compared t))
      · intro hs
        by_cases hmem : t ∈ w
        · obtain ⟨hcompared, hsorted⟩ := ht.resolve_right (not_not.mpr hmem)
          apply Ends.of_stays caught_of_records _ (hbody (s.enter compared t))
          refine ⟨hsorted, _, List.mem_cons_self, hcompared, ?_, ?_⟩
          · exact decide_eq_true (hs.parents ▸ List.mem_toFinset.mpr hmem)
          · exact decide_eq_true (hs.writing ▸ hmem)
        · exact ends_writeBody pf heap hsort hcycles ih (o.maxdepth - left) hmem hs

omit hsort hcycles hcard [Fintype T] in
theorem calls_pformat (v : Value T) :
    calls (pformat pf o heap sort v) = (finalState (pformatRecursive pf o
      (writeTable pf o heap sort o.maxdepth) 0 false v) State.initial).entries := by
  rw [pformat, finalState]
  cases pformatRecursive pf o (writeTable pf o heap sort o.maxdepth) 0 false v State.initial with
  | ok out s => rfl
  | error e s => rfl

/-- A run returns and no call was for a table that was marked or being written, or a
comparison is caught. -/
theorem pformat_clean_or_caught (v : Value T) :
    ((∃ out s, pformat pf o heap sort v = .ok out s) ∧
        ∀ e ∈ calls (pformat pf o heap sort v), e.marked = false ∧ e.inside = false) ∨
      o.sorted = true ∧ ∃ e ∈ calls (pformat pf o heap sort v),
        e.compared = true ∧ e.marked = true ∧ e.inside = true := by
  have hsound : Sound o o.maxdepth [] (pformatRecursive pf o
      (writeTable pf o heap sort o.maxdepth) 0 false v) :=
    sound_pformatRecursive pf (sound_writeTable pf heap hsort hcycles hcard o.maxdepth) 0
      (Or.inr (outside_nil v))
  have hends := (hsound State.initial).2 tidy_initial
  rw [calls_pformat]
  cases hrun : pformatRecursive pf o (writeTable pf o heap sort o.maxdepth) 0 false v
    State.initial with
  | error e s =>
      rw [Ends, hrun] at hends
      rw [finalState_of_error hrun]
      exact Or.inr hends
  | ok out s =>
      rw [Ends, hrun] at hends
      rw [finalState_of_ok hrun]
      exact hends.symm.imp_left fun htidy => ⟨⟨out, s, hrun⟩, htidy.clean⟩

/-- A run returns and writes no table inside itself exactly where no comparison of keys
formats a table that is marked. -/
theorem pformat_safe_iff (v : Value T) :
    ((∃ out s, pformat pf o heap sort v = .ok out s) ∧
        ∀ e ∈ calls (pformat pf o heap sort v), e.inside = false) ↔
      (o.sorted = true →
        ∀ e ∈ calls (pformat pf o heap sort v), e.compared = true → e.marked = false) := by
  rcases pformat_clean_or_caught pf heap hsort hcycles hcard v with
    ⟨hok, hclean⟩ | ⟨hsorted, e, he, hcompared, hmarked, hinside⟩
  · exact ⟨fun _ _ e he _ => (hclean e he).1, fun _ => ⟨hok, fun e he => (hclean e he).2⟩⟩
  · constructor
    · rintro ⟨-, hall⟩
      rw [hall e he] at hinside
      cases hinside
    · intro hall
      rw [hall hsorted e he hcompared] at hmarked
      cases hmarked

end Depth

theorem pformat_safe_iff_shared :
    (∃ out s, pformat plainFormatter { maxdepth := 4 } shared Sorting.insertion (.table 0) =
        .ok out s) ∧
      ∀ e ∈ calls (pformat plainFormatter { maxdepth := 4 } shared Sorting.insertion (.table 0)),
        e.inside = false :=
  (pformat_safe_iff plainFormatter shared Sorting.total_insertion (by decide) (by decide)
    (.table 0)).mpr (by decide +kernel)

/-- A comparison formats the table whose keys are sorted, again and again. -/
theorem not_pformat_safe :
    ¬ ∀ (T : Type) [DecidableEq T] [Fintype T] (pf : Formatter) (o : Options T) (heap : Heap T)
      (sort : List (Value T) → Sorting (Value T)) (v : Value T), Sorting.Total sort →
      o.cycles ≠ .abort → Fintype.card T < o.maxdepth →
      (∃ out s, pformat pf o heap sort v = .ok out s) ∧
        ∀ e ∈ calls (pformat pf o heap sort v), e.inside = false := by
  intro hclaim
  obtain ⟨-, hinside⟩ := hclaim (Fin 2) plainFormatter { maxdepth := 3 } selfKeyed
    Sorting.insertion (.table 0) Sorting.total_insertion (by decide) (by decide)
  revert hinside
  decide +kernel

end LuaAttic.Serialization
