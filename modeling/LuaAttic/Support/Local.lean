import Mathlib.Data.Set.Function
import Mathlib.Data.Set.Lattice
import Mathlib.Order.CompletePartialOrder

/-!
# Operations that are local to a set of keys

A state is looked at through a view that gives a value to every key.  An
operation is local to a set of keys if it leaves the values of the other keys
as they are, and its effect on the values of the set depends on these values
only.  Operations that are local to disjoint sets do not disturb each other:
after a sequence of them every set of keys is as its own operation leaves it.
-/

namespace LuaAttic.Support

variable {σ ι β : Type*}

/-- The operation concerns the keys of a set only. -/
structure LocalTo (view : σ → ι → β) (S : Set ι) (F : σ → σ) : Prop where
  frame : ∀ s, Set.EqOn (view (F s)) (view s) Sᶜ
  reads : ∀ s s', Set.EqOn (view s) (view s') S →
    Set.EqOn (view (F s)) (view (F s')) S

namespace LocalTo

variable {view : σ → ι → β} {S T : Set ι} {F G : σ → σ}

/-- An operation that is not seen is local to any set. -/
theorem of_view_eq (h : ∀ s, view (F s) = view s) : LocalTo view S F where
  frame s i _ := by rw [h s]
  reads s s' hs := by rwa [h s, h s']

theorem mono (h : LocalTo view S F) (hST : S ⊆ T) : LocalTo view T F where
  frame s := (h.frame s).mono (Set.compl_subset_compl.mpr hST)
  reads s s' hs i hi := by
    by_cases hiS : i ∈ S
    · exact h.reads s s' (hs.mono hST) hiS
    · rw [h.frame s hiS, h.frame s' hiS, hs hi]

theorem comp (hF : LocalTo view S F) (hG : LocalTo view S G) :
    LocalTo view S fun s => F (G s) where
  frame s := (hF.frame (G s)).trans (hG.frame s)
  reads s s' hs := hF.reads _ _ (hG.reads s s' hs)

theorem frame_of_disjoint (h : LocalTo view S F) (hd : Disjoint S T) (s : σ) :
    Set.EqOn (view (F s)) (view s) T :=
  (h.frame s).mono fun _ hT hS => Set.disjoint_left.mp hd hS hT

section Fold

variable {α : Type*} {F : α → σ → σ} {l : List α}

theorem foldl (h : ∀ a ∈ l, LocalTo view S (F a)) :
    LocalTo view S fun s => l.foldl (fun s a => F a s) s := by
  induction l with
  | nil => exact of_view_eq fun _ => rfl
  | cons a l ih =>
      have htail := ih fun a ha => h a (List.mem_cons_of_mem _ ha)
      exact htail.comp (h a List.mem_cons_self)

/-- A sequence of operations leaves the keys of all of them alone that none of
them concerns. -/
theorem foldl_frame {S : α → Set ι} (h : ∀ a ∈ l, LocalTo view (S a) (F a))
    (hd : ∀ a ∈ l, Disjoint (S a) T) (s : σ) :
    Set.EqOn (view (l.foldl (fun s a => F a s) s)) (view s) T := by
  refine List.foldlRecOn (motive := fun s' => Set.EqOn (view s') (view s) T)
    _ _ (Set.eqOn_refl _ _) ?_
  intro s' hs' a ha
  exact ((h a ha).frame_of_disjoint (hd a ha) s').trans hs'

/-- After operations that are local to disjoint sets, each set is as its own
operation leaves it. -/
theorem foldl_eqOn {S : α → Set ι} (h : ∀ a ∈ l, LocalTo view (S a) (F a))
    (hd : l.Pairwise fun a b => Disjoint (S a) (S b)) {a : α} (ha : a ∈ l)
    (s : σ) :
    Set.EqOn (view (l.foldl (fun s a => F a s) s)) (view (F a s)) (S a) := by
  induction l generalizing s with
  | nil => exact absurd ha List.not_mem_nil
  | cons b l ih =>
      obtain ⟨hb, hl⟩ := List.pairwise_cons.mp hd
      have htail := fun a ha => h a (List.mem_cons_of_mem _ ha)
      rw [List.foldl_cons]
      obtain rfl | ha := List.mem_cons.mp ha
      · exact foldl_frame htail (fun c hc => (hb c hc).symm) _
      · refine (ih htail hl ha (F b s)).trans ?_
        exact (htail a ha).reads _ _
          ((h b List.mem_cons_self).frame_of_disjoint (hb a ha) s)

end Fold

end LocalTo

end LuaAttic.Support
