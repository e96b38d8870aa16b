import LuaAttic.Varlinker.Runs
import LuaAttic.Support.Fallible

/-!
# Variables that are fields

A variable stands for a field of a table, and two variables can be of the same
field.  An assignment calls `set` for what can be reached from the variable, and
for each of these once, whatever the links are.
-/

namespace LuaAttic.Varlinker

open LuaAttic.Support

variable {Field Val : Type} [DecidableEq Field]

/-! ## Assignments -/

/-- `set(k, v)`, where the variables are fields. -/
def Linker.setField (Λ : Linker Val) (field : ℕ → Field) (k : ℕ) (v : Val)
    (m : Field → Val) : Field → Val :=
  let m := Function.update m (field k) v
  match Λ.setters k with
  | some setter => Function.update m (field k) (setter fun j => m (field j))
  | none => m

/-- The fields, what `set` was called with, and the variables touched. -/
structure Tables (Field Val : Type) where
  vals : Field → Val
  sets : List (ℕ × Val) := []
  touched : List ℕ := []

/-- `update_linkset(linkset, k, v, touched)`, where the variables are fields. -/
def Linker.updateFields (Λ : Linker Val) (field : ℕ → Field) (L : Linkset Val) :
    ℕ → ℕ → Val → Tables Field Val → Option (Tables Field Val)
  | 0, _, _, _ => none
  | n + 1, k, v, st =>
      if k ∈ st.touched then some st
      else
        (L.dependents k).foldlM
          (fun st e =>
            Λ.updateFields field L n e.1 (e.2.fn fun j => st.vals (field j)) st)
          ⟨Λ.setField field k v st.vals, st.sets ++ [(k, v)], st.touched ++ [k]⟩

variable {Λ : Linker Val} {field : ℕ → Field} {L : Linkset Val} {n k : ℕ} {v : Val}
  {st out : Tables Field Val}

/-- Where each variable is a field of its own, the fields are the values. -/
theorem map_updateFields_id (Λ : Linker Val) (L : Linkset Val) (n k : ℕ) (v : Val)
    (st : Tables ℕ Val) :
    (Λ.updateFields id L n k v st).map (fun st => State.mk st.vals st.touched) =
      Λ.updateLinkset L n k v ⟨st.vals, st.touched⟩ := by
  induction n generalizing k v st with
  | zero => rfl
  | succ n ih =>
      by_cases hk : k ∈ st.touched
      · rw [Linker.updateFields, if_pos hk, Linker.updateLinkset, if_pos hk]
        rfl
      · rw [Linker.updateFields, if_neg hk, Linker.updateLinkset, if_neg hk]
        exact map_foldlM (fun st e => ih e.1 _ st) _ _

/-- The variables touched are those of a walk. -/
theorem map_touched_updateFields (Λ : Linker Val) (field : ℕ → Field) (L : Linkset Val)
    (n k : ℕ) (v : Val) (st : Tables Field Val) :
    (Λ.updateFields field L n k v st).map Tables.touched =
      visit L.successors n k st.touched := by
  induction n generalizing k v st with
  | zero => rfl
  | succ n ih =>
      by_cases hk : k ∈ st.touched
      · rw [Linker.updateFields, if_pos hk, visit_of_mem hk]
        rfl
      · rw [Linker.updateFields, if_neg hk, visit_of_notMem hk, visitAll,
          Linkset.successors, List.foldlM_map]
        exact map_foldlM (fun st e => ih e.1 _ st) _ _

/-! ## Calls of `set` -/

/-- The fields after some calls of `set`. -/
def Linker.setAll (Λ : Linker Val) (field : ℕ → Field) (sets : List (ℕ × Val))
    (m : Field → Val) : Field → Val :=
  sets.foldl (fun m e => Λ.setField field e.1 e.2 m) m

theorem setField_of_ne {c : Field} (hc : field k ≠ c) (v : Val) (m : Field → Val) :
    Λ.setField field k v m c = m c := by
  unfold Linker.setField
  cases Λ.setters k with
  | none => exact Function.update_of_ne hc.symm _ _
  | some setter =>
      exact (Function.update_of_ne hc.symm _ _).trans (Function.update_of_ne hc.symm _ _)

/-- A field that is of none of the variables keeps its value. -/
theorem setAll_of_ne {c : Field} {sets : List (ℕ × Val)}
    (hc : ∀ e ∈ sets, field e.1 ≠ c) (m : Field → Val) :
    Λ.setAll field sets m c = m c := by
  induction sets generalizing m with
  | nil => rfl
  | cons e sets ih =>
      obtain ⟨he, hsets⟩ := List.forall_mem_cons.mp hc
      exact (ih hsets _).trans (setField_of_ne he e.2 m)

/-- From a state to another one there are some more calls of `set`, each of them
for a variable that is touched by it. -/
def Linker.Calls (Λ : Linker Val) (field : ℕ → Field) (st out : Tables Field Val) : Prop :=
  ∃ sets, out.sets = st.sets ++ sets ∧ out.touched = st.touched ++ sets.map Prod.fst ∧
    out.vals = Λ.setAll field sets st.vals

theorem Linker.Calls.refl (st : Tables Field Val) : Λ.Calls field st st :=
  ⟨[], by simp, by simp, rfl⟩

theorem Linker.Calls.trans {st mid out : Tables Field Val} (h : Λ.Calls field st mid)
    (h' : Λ.Calls field mid out) : Λ.Calls field st out := by
  obtain ⟨sets, hsets, htouched, hvals⟩ := h
  obtain ⟨sets', hsets', htouched', hvals'⟩ := h'
  refine ⟨sets ++ sets', ?_, ?_, ?_⟩
  · rw [hsets', hsets, List.append_assoc]
  · rw [htouched', htouched, List.map_append, List.append_assoc]
  · rw [hvals', hvals, Linker.setAll, Linker.setAll, Linker.setAll, List.foldl_append]

theorem calls_updateFields (h : Λ.updateFields field L n k v st = some out) :
    Λ.Calls field st out := by
  induction n generalizing k v st out with
  | zero => cases h
  | succ n ih =>
      by_cases hk : k ∈ st.touched
      · rw [Linker.updateFields, if_pos hk] at h
        obtain rfl := Option.some.inj h
        exact .refl st
      · rw [Linker.updateFields, if_neg hk] at h
        refine foldlM_keeps (fun mid e next hnext hmid => ?_) h ?_
        · exact hmid.trans (ih hnext)
        · exact ⟨[(k, v)], rfl, rfl, rfl⟩

/-- What is called after the first call. -/
theorem calls_of_untouched (hk : k ∉ st.touched)
    (h : Λ.updateFields field L n k v st = some out) :
    Λ.Calls field ⟨Λ.setField field k v st.vals, st.sets ++ [(k, v)], st.touched ++ [k]⟩
      out := by
  cases n with
  | zero => cases h
  | succ n =>
      rw [Linker.updateFields, if_neg hk] at h
      exact foldlM_keeps (fun mid e next hnext hmid => hmid.trans (calls_updateFields hnext))
        h (.refl _)

/-! ## Termination -/

theorem updateFields_succ (h : Λ.updateFields field L n k v st = some out) :
    Λ.updateFields field L (n + 1) k v st = some out := by
  induction n generalizing k v st out with
  | zero => cases h
  | succ n ih =>
      by_cases hk : k ∈ st.touched
      · rw [Linker.updateFields, if_pos hk] at h ⊢
        exact h
      · rw [Linker.updateFields, if_neg hk] at h ⊢
        exact foldlM_mono (fun mid e next hnext => ih hnext) h

/-- More fuel does not change the result. -/
theorem updateFields_mono {n' : ℕ} (hle : n ≤ n')
    (h : Λ.updateFields field L n k v st = some out) :
    Λ.updateFields field L n' k v st = some out := by
  induction n', hle using Nat.le_induction with
  | base => exact h
  | succ n' _ ih => exact updateFields_succ ih

/-- An assignment ends, on any linkset.  It calls `set` for the variables that
are reached from the one assigned, the latter first, for each of them once, and
leaves the fields of all others. -/
theorem updateFields_reached (Λ : Linker Val) (field : ℕ → Field) (L : Linkset Val)
    (k : ℕ) (v : Val) (m : Field → Val) :
    ∃ out : Tables Field Val,
      (∀ n, L.fuel ≤ n → Λ.updateFields field L n k v ⟨m, [], []⟩ = some out) ∧
      out.vals = Λ.setAll field out.sets m ∧
      out.sets.head? = some (k, v) ∧
      (out.sets.map Prod.fst).Nodup ∧
      (∀ w, w ∈ out.sets.map Prod.fst ↔ Relation.ReflTransGen L.graph.edge k w) ∧
      ∀ c, (∀ w, Relation.ReflTransGen L.graph.edge k w → field w ≠ c) →
        out.vals c = m c := by
  have htouched := map_touched_updateFields Λ field L L.fuel k v ⟨m, [], []⟩
  rw [visit_visited] at htouched
  obtain ⟨out, hrun, hout⟩ := Option.map_eq_some_iff.mp htouched
  obtain ⟨sets, hsets, hmap, hvals⟩ := calls_of_untouched List.not_mem_nil hrun
  have hmap : out.touched = out.sets.map Prod.fst := by
    rw [hmap, hsets]
    rfl
  have hvals : out.vals = Λ.setAll field out.sets m := by
    rw [hvals, hsets]
    rfl
  have hreached : ∀ w, w ∈ out.sets.map Prod.fst ↔
      Relation.ReflTransGen L.graph.edge k w := by
    intro w
    rw [← hmap, hout]
    exact mem_visited_iff
  refine ⟨out, fun n hn => updateFields_mono hn hrun, hvals, ?_, ?_, hreached, ?_⟩
  · rw [hsets]
    rfl
  · rw [← hmap, hout]
    exact nodup_visited L k
  · intro c hc
    rw [hvals]
    apply setAll_of_ne
    intro e he
    exact hc e.1 ((hreached e.1).mp (List.mem_map_of_mem he))

end LuaAttic.Varlinker
