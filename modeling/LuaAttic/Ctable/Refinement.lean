import LuaAttic.Ctable.Operations
import LuaAttic.Support.Run

/-!
# A table is a finite map

Whatever is asked of a table, it answers as a finite map does, as long as it starts with
room and never shrinks.  In all states that are reached its own check passes, and going
through it gives every key once, with its value.
-/

namespace LuaAttic.Ctable

open LuaAttic.Support

variable {K V : Type} [DecidableEq K]

/-! ## Requests -/

inductive Request (K V : Type)
  | add (key : K) (value : V) (updates : Updates)
  | update (key : K) (value : V)
  | lookup (key : K)
  | remove (key : K) (missingAllowed : Bool)

inductive Answer (K V : Type)
  /-- the entry that a pointer or an index stands for -/
  | entry (e : Option (Entry K V))
  | removed (there : Bool)
  | failed (f : Failure)

section

variable [Inhabited K] [Inhabited V]

def perform (o : Params K) : Request K V → Program K V (Answer K V)
  | .add key value updates => do
      let index ← add o key value updates
      let t ← get
      return .entry (some (t.entries index))
  | .update key value => do
      let index ← update o key value
      let t ← get
      return .entry (some (t.entries index))
  | .lookup key => do
      let t ← get
      let ptr ← MonadExcept.ofExcept (lookupPtr o t key)
      return .entry (ptr.map t.entries)
  | .remove key missingAllowed => do
      let there ← remove o key missingAllowed
      return .removed there

/-- The table after a request, also where it fails. -/
def serve (o : Params K) (t : CTable K V) (r : Request K V) : CTable K V :=
  finalState (perform o r) t

def answer (o : Params K) (t : CTable K V) (r : Request K V) : Answer K V :=
  match perform o r t with
  | .ok a _ => a
  | .error f _ => .failed f

end

/-! ## The map -/

/-- What `add` does to a map. -/
def put (m : K → Option V) (key : K) (value : V) (updates : Updates) :
    Except Failure (K → Option V) :=
  match m key, updates with
  | some _, .none => .error .keyPresent
  | none, .required => .error .keyNotFound
  | _, _ => .ok (Function.update m key (some value))

def putEntry (o : Params K) (m : K → Option V) (key : K) (value : V) (updates : Updates) :
    (K → Option V) × Answer K V :=
  match put m key value updates with
  | .ok m' => (m', .entry (some (o.entry key value)))
  | .error f => (m, .failed f)

def act (o : Params K) (m : K → Option V) : Request K V → (K → Option V) × Answer K V
  | .add key value updates => putEntry o m key value updates
  | .update key value => putEntry o m key value .required
  | .lookup key => (m, .entry ((m key).map (o.entry key)))
  | .remove key missingAllowed =>
      match m key with
      | some _ => (Function.update m key none, .removed true)
      | none => (m, if missingAllowed then .removed false else .failed .keyNotFound)

/-- The parameters of a table that starts with room and never shrinks. -/
structure Fit (o : Params K) : Prop where
  hash_lt : ∀ key, o.hashFn key < hashMax
  roomy : Roomy o o.initialSize
  min_le : o.minOccupancyRate ≤ 0

/-- The entries of a table are the pairs of a map. -/
structure Represents (o : Params K) (t : CTable K V) (m : K → Option V) : Prop where
  sound : Sound o t
  eq_some_iff : ∀ key value, m key = some value ↔ t.Holds (o.entry key value)

namespace Represents

variable {o : Params K} {t t' : CTable K V} {m : K → Option V} {key : K} {value : V}

omit [DecidableEq K] in
theorem key_ne (h : Represents o t m) (hkey : m key = none) {e : Entry K V} (he : t.Holds e) :
    e.key ≠ key := by
  rintro rfl
  obtain ⟨i, hi⟩ := he
  have := (h.eq_some_iff e.key e.value).mpr ⟨i, h.sound.eq_entry hi ▸ hi⟩
  rw [hkey] at this
  cases this

omit [DecidableEq K] in
theorem of_holds_iff (h : Represents o t m) (hs : Sound o t')
    (hholds : ∀ e, t'.Holds e ↔ t.Holds e) : Represents o t' m :=
  ⟨hs, fun key value => (h.eq_some_iff key value).trans (hholds _).symm⟩

theorem stored {p : ℕ} (h : Represents o t m) (hstored : Stored o t key value p t') :
    Represents o t' (Function.update m key (some value)) := by
  refine ⟨hstored.sound, fun key' value' => ?_⟩
  rw [hstored.holds_iff]
  by_cases hkey : key' = key
  · subst hkey
    rw [Function.update_self, Option.some.injEq]
    constructor
    · rintro rfl
      exact Or.inl rfl
    · rintro (heq | hne)
      · exact (congrArg Entry.value heq).symm
      · exact absurd rfl hne.1
  · rw [Function.update_of_ne hkey, h.eq_some_iff]
    refine ⟨fun he => Or.inr ⟨hkey, he⟩, ?_⟩
    rintro (heq | he)
    · exact absurd (congrArg Entry.key heq) hkey
    · exact he.2

theorem removed (h : Represents o t m) (hs : Sound o t')
    (hholds : ∀ e, t'.Holds e ↔ e.key ≠ key ∧ t.Holds e) :
    Represents o t' (Function.update m key none) := by
  refine ⟨hs, fun key' value' => ?_⟩
  rw [hholds]
  by_cases hkey : key' = key
  · rw [hkey, Function.update_self]
    exact iff_of_false nofun fun he => he.1 rfl
  · rw [Function.update_of_ne hkey, h.eq_some_iff]
    exact (and_iff_right hkey).symm

variable [Inhabited K] [Inhabited V]

/-- `add` puts a pair into the map, or fails as that does. -/
theorem add (h : Represents o t m) (hfn : ∀ key, o.hashFn key < hashMax) (key : K) (value : V)
    (updates : Updates) :
    match put m key value updates with
    | .ok m' => ∃ p t', Ctable.add o key value updates t = .ok p t' ∧ Represents o t' m' ∧
        t'.entries p = o.entry key value
    | .error f => ∃ t', Ctable.add o key value updates t = .error f t' ∧ Represents o t' m := by
  obtain ⟨t₁, hgrow, hs₁, hroom, hholds⟩ := exists_grown hfn h.sound
  have h₁ := h.of_holds_iff hs₁ hholds
  have hadd : Ctable.add o key value updates t =
      insertEntry (o.hashFn key) key value updates t₁ := by
    rw [Ctable.add, if_pos (hfn key), insert, get_bind_apply]
    exact bind_of_ok hgrow
  rw [hadd]
  cases hkey : m key with
  | some old =>
      obtain ⟨p, t', hstored, hinsert⟩ :=
        insertEntry_of_holds hfn hs₁ ((h₁.eq_some_iff key old).mp hkey) value
      rw [hinsert]
      cases updates with
      | none =>
          simp only [put, hkey]
          exact ⟨t₁, rfl, h₁⟩
      | allowed =>
          simp only [put, hkey]
          exact ⟨p, t', rfl, h₁.stored hstored, hstored.entries_eq⟩
      | required =>
          simp only [put, hkey]
          exact ⟨p, t', rfl, h₁.stored hstored, hstored.entries_eq⟩
  | none =>
      obtain ⟨p, t', hstored, -, hinsert⟩ :=
        insertEntry_of_absent hfn hs₁ hroom (fun e he => h₁.key_ne hkey he) value
      rw [hinsert]
      cases updates with
      | none =>
          simp only [put, hkey]
          exact ⟨p, t', rfl, h₁.stored hstored, hstored.entries_eq⟩
      | allowed =>
          simp only [put, hkey]
          exact ⟨p, t', rfl, h₁.stored hstored, hstored.entries_eq⟩
      | required =>
          simp only [put, hkey]
          exact ⟨t₁, rfl, h₁⟩

theorem perform_add (h : Represents o t m) (hfn : ∀ key, o.hashFn key < hashMax) (key : K)
    (value : V) (updates : Updates) :
    Represents o (serve o t (.add key value updates)) (putEntry o m key value updates).1 ∧
      answer o t (.add key value updates) = (putEntry o m key value updates).2 := by
  have hadd := h.add hfn key value updates
  rw [putEntry]
  cases hput : put m key value updates with
  | ok m' =>
      rw [hput] at hadd
      obtain ⟨p, t', hok, h', hentry⟩ := hadd
      have hperform : perform o (.add key value updates) t =
          .ok (.entry (some (t'.entries p))) t' := bind_of_ok hok
      rw [serve, answer, finalState, hperform, hentry]
      exact ⟨h', rfl⟩
  | error f =>
      rw [hput] at hadd
      obtain ⟨t', herror, h'⟩ := hadd
      have hperform : perform o (.add key value updates) t = .error f t' := bind_of_error herror
      rw [serve, answer, finalState, hperform]
      exact ⟨h', rfl⟩

/-- A request changes the table as it changes the map, and has the same answer. -/
theorem step (hfit : Fit o) (h : Represents o t m) (r : Request K V) :
    Represents o (serve o t r) (act o m r).1 ∧ answer o t r = (act o m r).2 := by
  cases r with
  | add key value updates => exact h.perform_add hfit.hash_lt key value updates
  | update key value => exact h.perform_add hfit.hash_lt key value .required
  | lookup key =>
      cases hkey : m key with
      | some value =>
          obtain ⟨i, hptr, hi⟩ :=
            lookupPtr_of_holds hfit.hash_lt h.sound ((h.eq_some_iff key value).mp hkey)
          have hperform : perform o (.lookup key) t = .ok (.entry (some (t.entries i))) t := by
            rw [perform, get_bind_apply, hptr]
            rfl
          rw [serve, answer, finalState, hperform, act, hkey,
            (CTable.slot_eq_some_iff.mp hi).1]
          exact ⟨h, rfl⟩
      | none =>
          have hperform : perform o (.lookup key) t = .ok (.entry none) t := by
            rw [perform, get_bind_apply,
              lookupPtr_of_absent hfit.hash_lt h.sound fun e he => h.key_ne hkey he]
            rfl
          rw [serve, answer, finalState, hperform, act, hkey]
          exact ⟨h, rfl⟩
  | remove key missingAllowed =>
      cases hkey : m key with
      | some value =>
          obtain ⟨i, hptr, hi⟩ :=
            lookupPtr_of_holds hfit.hash_lt h.sound ((h.eq_some_iff key value).mp hkey)
          obtain ⟨t', hremove, hs', hholds⟩ :=
            exists_removePtr hfit.hash_lt hfit.min_le h.sound hi
          have hok : Ctable.remove o key missingAllowed t = .ok true t' := by
            rw [Ctable.remove, get_bind_apply, hptr]
            exact bind_of_ok hremove
          have hperform : perform o (.remove key missingAllowed) t = .ok (.removed true) t' :=
            bind_of_ok hok
          rw [serve, answer, finalState, hperform, act, hkey]
          exact ⟨h.removed hs' hholds, rfl⟩
      | none =>
          have habsent := lookupPtr_of_absent hfit.hash_lt h.sound fun e he => h.key_ne hkey he
          have hremove : Ctable.remove o key missingAllowed t =
              if missingAllowed then .ok false t else .error .keyNotFound t := by
            rw [Ctable.remove, get_bind_apply, habsent]
            cases missingAllowed <;> rfl
          cases missingAllowed with
          | true =>
              have hperform : perform o (.remove key true) t = .ok (.removed false) t :=
                bind_of_ok hremove
              rw [serve, answer, finalState, hperform, act, hkey]
              exact ⟨h, rfl⟩
          | false =>
              have hperform : perform o (.remove key false) t = .error .keyNotFound t :=
                bind_of_error hremove
              rw [serve, answer, finalState, hperform, act, hkey]
              exact ⟨h, rfl⟩

end Represents

section Runs

variable [Inhabited K] [Inhabited V] {o : Params K}

theorem exists_new (hfit : Fit o) (t : CTable K V) :
    ∃ t', new o t = .ok () t' ∧ Represents o t' fun _ => none := by
  have hassert : o.initialSize ≥ (blank 0 : CTable K V).occupancy / o.maxOccupancyRate := by
    obtain ⟨n, hn, -⟩ := hfit.roomy
    change o.initialSize ≥ ((0 : ℕ) : ℚ) / o.maxOccupancyRate
    rw [hn, Nat.cast_zero, zero_div]
    exact Nat.cast_nonneg n
  have hcount : (blank 0 : CTable K V).count = 0 :=
    CTable.count_of_size (n := 0) Nat.cast_zero.symm
  refine ⟨blank o.initialSize, ?_, sound_blank hfit.roomy, fun key value => ?_⟩
  · rw [new, set_bind_apply, resize, get_bind_apply, if_neg (not_not.mpr hassert), hcount]
    rfl
  · refine iff_of_false (fun h => Option.some_ne_none value h.symm) ?_
    rintro ⟨i, hi⟩
    obtain ⟨heq, hne⟩ := CTable.slot_eq_some_iff.mp hi
    exact hne (by rw [← heq]; rfl)

/-- The map after a request. -/
def served (o : Params K) (m : K → Option V) (r : Request K V) : K → Option V := (act o m r).1

/-- What a map answers. -/
def answered (o : Params K) (m : K → Option V) (r : Request K V) : Answer K V := (act o m r).2

theorem exists_run (hfit : Fit o) (t : CTable K V) (requests : List (Request K V)) :
    ∃ t', new o t = .ok () t' ∧
      Represents o (run (serve o) requests t') (run (served o) requests fun _ => none) ∧
      outputs (serve o) (answer o) requests t' =
        outputs (served o) (answered o) requests fun _ => none := by
  obtain ⟨t', hnew, h⟩ := exists_new hfit t
  have hstep : ∀ (t : CTable K V) m r, Represents o t m →
      Represents o (serve o t r) (served o m (id r)) ∧ answer o t r = answered o m (id r) :=
    fun t m r h => h.step hfit r
  have hsim := outputs_eq_of_simulation hstep requests h
  rw [List.map_id] at hsim
  exact ⟨t', hnew, hsim⟩

end Runs

/-- Hashes of twelve keys in ten slots, nine of which may be taken. -/
def tenSlots : Params ℕ where
  hashFn key := key % 12 * 300000000
  initialSize := 10

theorem fit_tenSlots : Fit tenSlots where
  hash_lt key := by
    have := Nat.mod_lt key (show 0 < 12 by decide)
    simp only [tenSlots, hashMax]
    omega
  roomy := ⟨10, rfl, by norm_num [Params.occupancyHi, tenSlots], by norm_num [tenSlots]⟩
  min_le := le_rfl

/-- Some of the keys share their hash. -/
def tenRequests : List (Request ℕ ℕ) :=
  [.add 1 10 .none, .add 13 11 .none, .add 2 12 .none, .add 1 13 .none, .remove 1 false,
    .lookup 13, .update 14 1, .remove 1 false]

end LuaAttic.Ctable
