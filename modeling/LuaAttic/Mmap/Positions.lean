import LuaAttic.Mmap.Leaks

/-!
# The position in a file (`mmap2.lua`)

The size of a file is found by seeking to its end.  Where the position is put
back, and where it is not.
-/

namespace LuaAttic.Mmap

open LuaAttic.Lua LuaAttic.Support

namespace System

/-! ## Positions -/

/-- The position of a descriptor after a call: a seek that does not fail returns
it. -/
def seek (fd p : ℤ) : Call × ℤ → ℤ
  | (.lseek fd' _ _, r) => if fd' = fd ∧ r ≠ -1 then r else p
  | _ => p

/-- The position of a descriptor after a log, from a position on. -/
def position (fd p : ℤ) (h : Log) : ℤ := h.foldl (seek fd) p

variable (sys : System)

/-- What is relied upon: a seek by nothing from the current position fails or
returns the position, and a seek back to a position that was so reported
succeeds. -/
structure Seeks (fd p : ℤ) : Prop where
  current : ∀ h, sys.answer h (.lseek fd 0 SEEK_CUR) = -1 ∨
    sys.answer h (.lseek fd 0 SEEK_CUR) = position fd p h
  back : ∀ h ofs, (.lseek fd 0 SEEK_CUR, ofs) ∈ h → ofs ≠ -1 →
    sys.answer h (.lseek fd ofs SEEK_SET) = ofs

/-- After the program the position is what it was, also if it raises. -/
def KeepsPosition {α : Type} (fd p : ℤ) (m : Program Log α) (h : Log) : Prop :=
  Relates (fun s t => position fd p t = position fd p s) m h

/-- The calls that change the size of the file succeed. -/
def Resizes (fd size currentSize : ℤ) (h : Log) : Prop :=
  if currentSize < size then
    if sys.osx then
      let contiguous := Call.preallocate fd 2 3 0 size
      let all := Call.preallocate fd 4 3 0 size
      let h₁ := h ++ [(contiguous, sys.answer h contiguous)]
      if sys.answer h contiguous = -1 then
        sys.answer h₁ all ≠ -1 ∧
          sys.answer (h₁ ++ [(all, sys.answer h₁ all)]) (.ftruncate fd size) = 0
      else sys.answer h₁ (.ftruncate fd size) = 0
    else sys.answer h (.posix_fallocate fd 0 size) = 0
  else sys.answer h (.ftruncate fd size) = 0

/-- Once the position is at the end of the file, it was there before or the size is
changed. -/
def Restores (fd size : ℤ) (h : Log) : Prop :=
  let current := Call.lseek fd 0 SEEK_CUR
  let last := Call.lseek fd 0 SEEK_END
  let ofs := sys.answer h current
  let h₁ := h ++ [(current, ofs)]
  let currentSize := sys.answer h₁ last
  0 ≤ size → ofs ≠ -1 → currentSize ≠ -1 →
    currentSize = ofs ∨ sys.Resizes fd size currentSize (h₁ ++ [(last, currentSize)])

/-! ## Calls -/

section Calls

variable {sys} {fd p : ℤ} {h : Log}

theorem position_append (h new : Log) :
    position fd p (h ++ new) = position fd (position fd p h) new :=
  List.foldl_append

instance : IsPreorder Log fun s t => position fd p t = position fd p s where
  refl _ := rfl
  trans _ _ _ h h' := h'.trans h

/-- Nothing of a log is a seek. -/
theorem position_of_still {new : Log} (hnew : ∀ e ∈ new, ∀ fd p, seek fd p e = p) :
    position fd p (h ++ new) = position fd p h := by
  rw [position_append]
  generalize position fd p h = q
  induction new with
  | nil => rfl
  | cons e new ih =>
      rw [position, List.foldl_cons, hnew e List.mem_cons_self]
      exact ih fun e' he' => hnew e' (List.mem_cons_of_mem e he')

/-- A program that does not seek and ends, and does what it is for under some
condition. -/
def Attempts (m : Program Log (Except Failure Unit)) (h : Log) (done : Prop) : Prop :=
  ∃ r new, m h = .ok r (h ++ new) ∧ (∀ e ∈ new, ∀ fd p, seek fd p e = p) ∧
    (r = .ok () ↔ done)

theorem attempts_ok {done : Prop} (hdone : done) : Attempts (return .ok ()) h done := by
  refine ⟨.ok (), [], ?_, by simp, by simp [hdone]⟩
  rw [List.append_nil]
  rfl

theorem attempts_error {done : Prop} (e : Failure) (hdone : ¬ done) :
    Attempts (return .error e) h done := by
  refine ⟨.error e, [], ?_, by simp, by simp [hdone]⟩
  rw [List.append_nil]
  rfl

theorem attempts_failing {done : Prop} (hdone : ¬ done) :
    Attempts (do return .error (← sys.reterrLast)) h done :=
  attempts_error (sys.reterr (sys.errno h)) hdone

theorem Attempts.call {c : Call} {f : ℤ → Program Log (Except Failure Unit)} {done : Prop}
    (hc : ∀ r fd p, seek fd p (c, r) = p)
    (hf : Attempts (f (sys.answer h c)) (h ++ [(c, sys.answer h c)]) done) :
    Attempts (sys.call c >>= f) h done := by
  obtain ⟨r, new, hrun, hnew, hdone⟩ := hf
  refine ⟨r, (c, sys.answer h c) :: new, ?_, ?_, hdone⟩
  · rw [call_bind, hrun, List.append_assoc]
    rfl
  · rw [List.forall_mem_cons]
    exact ⟨hc _, hnew⟩

theorem attempts_ftruncate (fd size : ℤ) :
    Attempts (sys.ftruncate fd size) h (sys.answer h (.ftruncate fd size) = 0) := by
  refine Attempts.call (fun _ _ _ => rfl) ?_
  split
  · next hzero => exact attempts_ok hzero
  · next hne => exact attempts_failing hne

theorem attempts_fallocateLinux (fd size currentSize : ℤ) :
    Attempts (sys.fallocateLinux fd size currentSize) h
      (sys.answer h (.posix_fallocate fd 0 size) = 0) := by
  refine Attempts.call (fun _ _ _ => rfl) ?_
  split
  · next hne => exact Attempts.call (fun _ _ _ => rfl) (attempts_error _ hne)
  · next hzero => exact attempts_ok (not_not.mp hzero)

theorem attempts_fallocateOsx (fd size : ℤ) :
    Attempts (sys.fallocateOsx fd size) h
      (if sys.answer h (.preallocate fd 2 3 0 size) = -1 then
        sys.answer (h ++ [(.preallocate fd 2 3 0 size,
            sys.answer h (.preallocate fd 2 3 0 size))]) (.preallocate fd 4 3 0 size) ≠ -1 ∧
          sys.answer (h ++ [(.preallocate fd 2 3 0 size,
            sys.answer h (.preallocate fd 2 3 0 size))] ++ [(.preallocate fd 4 3 0 size,
              sys.answer (h ++ [(.preallocate fd 2 3 0 size,
                sys.answer h (.preallocate fd 2 3 0 size))]) (.preallocate fd 4 3 0 size))])
            (.ftruncate fd size) = 0
      else sys.answer (h ++ [(.preallocate fd 2 3 0 size,
        sys.answer h (.preallocate fd 2 3 0 size))]) (.ftruncate fd size) = 0) := by
  refine Attempts.call (fun _ _ _ => rfl) ?_
  by_cases hfails : sys.answer h (.preallocate fd 2 3 0 size) = -1
  · rw [if_pos hfails, if_pos hfails]
    refine Attempts.call (fun _ _ _ => rfl) ?_
    split
    · next hfails' => exact attempts_failing fun hdone => hdone.1 hfails'
    · next hworks =>
        rw [and_iff_right hworks]
        exact attempts_ftruncate fd size
  · rw [if_neg hfails, if_neg hfails]
    exact attempts_ftruncate fd size

/-- What changes the size. -/
theorem attempts_resize (fd size currentSize : ℤ) :
    Attempts (if currentSize < size then sys.fallocate fd size currentSize
      else sys.ftruncate fd size) h (sys.Resizes fd size currentSize h) := by
  unfold Resizes
  by_cases hgrow : currentSize < size
  · rw [if_pos hgrow, if_pos hgrow, fallocate]
    by_cases hosx : sys.osx = true
    · rw [if_pos hosx, if_pos hosx]
      exact attempts_fallocateOsx fd size
    · rw [if_neg hosx, if_neg hosx]
      exact attempts_fallocateLinux fd size currentSize
  · rw [if_neg hgrow, if_neg hgrow]
    exact attempts_ftruncate fd size

theorem position_seek {h : Log} {ofs : ℤ} {whence : ℕ} {r : ℤ} :
    position fd p (h ++ [(.lseek fd ofs whence, r)]) =
      if r = -1 then position fd p h else r := by
  rw [position_append]
  by_cases hr : r = -1 <;> simp [position, seek, hr]

theorem finalState_call_bind {α : Type} (c : Call) (f : ℤ → Program Log α) :
    finalState (sys.call c >>= f) h =
      finalState (f (sys.answer h c)) (h ++ [(c, sys.answer h c)]) := rfl

theorem finalState_failing {α : Type} :
    finalState (do return (.error (← sys.reterrLast) : Except Failure α) : Program Log _) h =
      h := rfl

/-- Asking for the position leaves it. -/
theorem Seeks.position_current (hseeks : sys.Seeks fd p) :
    position fd p (h ++ [(.lseek fd 0 SEEK_CUR, sys.answer h (.lseek fd 0 SEEK_CUR))]) =
      position fd p h := by
  rw [position_seek]
  split_ifs with hfails
  · rfl
  · exact (hseeks.current h).resolve_left hfails

theorem Seeks.position_restore (hseeks : sys.Seeks fd p) {ofs : ℤ} (size : ℤ)
    (hmem : (.lseek fd 0 SEEK_CUR, ofs) ∈ h) (hofs : ofs ≠ -1) :
    position fd p (finalState (sys.restore fd ofs size) h) = ofs := by
  have hback := hseeks.back h ofs hmem hofs
  have hfinal : finalState (sys.restore fd ofs size) h =
      h ++ [(.lseek fd ofs SEEK_SET, ofs)] := by
    rw [restore, finalState_call_bind, hback, if_neg hofs, if_neg (not_not_intro rfl)]
    rfl
  rw [hfinal, position_seek, if_neg hofs]

theorem keepsPosition_getsize (hseeks : sys.Seeks fd p) (h : Log) :
    KeepsPosition fd p (sys.getsize fd) h := by
  have hcurrent := hseeks.position_current (h := h)
  rw [KeepsPosition, Relates, getsize, finalState_call_bind]
  split
  · exact hcurrent
  · next hofs =>
      rw [finalState_call_bind]
      split
      · next hfails => rw [finalState_failing, position_seek, if_pos hfails, hcurrent]
      · rw [hseeks.position_restore _ (by simp) hofs, ← hcurrent, position_seek, if_neg hofs]

/-- After an error the position stays where it is. -/
theorem Seeks.position_finish (hseeks : sys.Seeks fd p) {ofs : ℤ} (size : ℤ)
    (r : Except Failure Unit) (hmem : (.lseek fd 0 SEEK_CUR, ofs) ∈ h) (hofs : ofs ≠ -1) :
    position fd p (finalState (match r with
      | .error e => return .error e
      | .ok () => sys.restore fd ofs size : Program Log (Except Failure ℤ)) h) = ofs ↔
      position fd p h = ofs ∨ r = .ok () := by
  cases r with
  | error e =>
      change position fd p h = ofs ↔ _
      simp
  | ok u => simp [hseeks.position_restore size hmem hofs]

theorem restores_iff {size ofs last : ℤ} {h₁ : Log} (hsize : 0 ≤ size)
    (hcurrent : sys.answer h (.lseek fd 0 SEEK_CUR) = ofs) (hofs : ofs ≠ -1)
    (hlog : h ++ [(.lseek fd 0 SEEK_CUR, ofs)] = h₁)
    (hlast : sys.answer h₁ (.lseek fd 0 SEEK_END) = last) (hend : last ≠ -1) :
    sys.Restores fd size h ↔
      last = ofs ∨ sys.Resizes fd size last (h₁ ++ [(.lseek fd 0 SEEK_END, last)]) := by
  subst hcurrent hlog hlast
  exact ⟨fun h => h hsize hofs hend, fun h _ _ _ => h⟩

/-- Setting the size keeps the position exactly if the size is changed or the
position was at the end. -/
theorem keepsPosition_setsize_iff (hseeks : sys.Seeks fd p) (size : ℤ) (h : Log) :
    KeepsPosition fd p (sys.setsize fd size) h ↔ sys.Restores fd size h := by
  have hcurrent := hseeks.position_current (h := h)
  have hreported := hseeks.current h
  rw [KeepsPosition, Relates]
  by_cases hsize : size < 0
  · rw [setsize, if_pos hsize]
    exact iff_of_true rfl fun hnonneg => absurd hsize (not_lt.mpr hnonneg)
  · rw [setsize, if_neg hsize]
    change position fd p (finalState (sys.call _ >>= _) h) = _ ↔ _
    rw [finalState_call_bind]
    by_cases hfails : sys.answer h (.lseek fd 0 SEEK_CUR) = -1
    · rw [if_pos hfails]
      exact iff_of_true hcurrent fun _ hofs => absurd hfails hofs
    · rw [if_neg hfails]
      change position fd p (finalState (sys.call _ >>= _) _) = _ ↔ _
      rw [finalState_call_bind, ← hreported.resolve_left hfails]
      generalize hofs : sys.answer h (.lseek fd 0 SEEK_CUR) = ofs at *
      generalize hlog : h ++ [(Call.lseek fd 0 SEEK_CUR, ofs)] = h₁ at *
      generalize hlast : sys.answer h₁ (.lseek fd 0 SEEK_END) = last
      by_cases hend : last = -1
      · rw [if_pos hend]
        have hrestores : sys.Restores fd size h := by
          subst hofs hlog hlast
          exact fun _ _ hne => absurd hend hne
        refine iff_of_true ?_ hrestores
        rw [finalState_failing, position_seek, if_pos hend, hcurrent]
        exact (hreported.resolve_left hfails).symm
      · rw [if_neg hend, restores_iff (not_lt.mp hsize) hofs hfails hlog hlast hend]
        obtain ⟨r, new, hrun, hnew, hdone⟩ : Attempts (if last < size then
            sys.fallocate fd size last else sys.ftruncate fd size)
          (h₁ ++ [(.lseek fd 0 SEEK_END, last)])
          (sys.Resizes fd size last (h₁ ++ [(.lseek fd 0 SEEK_END, last)])) :=
          attempts_resize fd size last
        have hmoved : position fd p (h₁ ++ [(.lseek fd 0 SEEK_END, last)] ++ new) = last := by
          rw [position_of_still hnew, position_seek, if_neg hend]
        have hmem : (Call.lseek fd 0 SEEK_CUR, ofs) ∈
            h₁ ++ [(.lseek fd 0 SEEK_END, last)] ++ new := by
          simp [← hlog]
        have hfinish := hseeks.position_finish size r hmem hfails
        rw [hmoved, hdone] at hfinish
        by_cases hgrow : last < size
        · rw [if_pos hgrow] at hrun ⊢
          rw [finalState_bind_of_ok hrun]
          exact hfinish
        · rw [if_neg hgrow] at hrun ⊢
          rw [finalState_bind_of_ok hrun]
          exact hfinish

end Calls

/-! ## Results -/

/-- Asking for the size of a file keeps the position in it.  Setting the size keeps
it exactly if the calls that change the size succeed, as far as they are reached,
or the position was at the end. -/
theorem keepsPosition_iff {fd p : ℤ} (hseeks : sys.Seeks fd p) (h : Log) :
    KeepsPosition fd p (sys.getsize fd) h ∧
      ∀ size, KeepsPosition fd p (sys.setsize fd size) h ↔ sys.Restores fd size h :=
  ⟨keepsPosition_getsize hseeks h, fun size => keepsPosition_setsize_iff hseeks size h⟩

/-- A file of 100 bytes, with the position at its start, on a disk without or with
space left. -/
def hundredBytes (full : Bool) : System where
  platform := .linux
  pagesize := 4096
  answer h
    | .lseek fd ofs whence =>
        if whence = SEEK_SET then ofs
        else if whence = SEEK_CUR then position fd 0 h
        else 100
    | .posix_fallocate .. => if full then 28 else 0
    | _ => 0
  errno _ := 0
  strerror _ := ""

theorem seeks_hundredBytes (full : Bool) (fd : ℤ) : (hundredBytes full).Seeks fd 0 where
  current _ := .inr rfl
  back _ _ _ _ := rfl

/-- A file that can grow. -/
theorem keepsPosition_hundredBytes :
    KeepsPosition 3 0 ((hundredBytes false).getsize 3) [] ∧
      KeepsPosition 3 0 ((hundredBytes false).setsize 3 200) [] := by
  obtain ⟨hget, hset⟩ := keepsPosition_iff (hundredBytes false) (seeks_hundredBytes false 3) []
  exact ⟨hget, (hset 200).mpr fun _ _ _ => .inr rfl⟩

/-- A file that cannot grow is left at its end. -/
theorem not_keepsPosition :
    ¬ ∀ (sys : System) (fd p : ℤ), sys.Seeks fd p → ∀ h : Log,
      KeepsPosition fd p (sys.getsize fd) h ∧
        ∀ size, KeepsPosition fd p (sys.setsize fd size) h := by
  intro hclaim
  have hkept := (hclaim (hundredBytes true) 3 0 (seeks_hundredBytes true 3) []).2 200
  have hend : position 3 0 (finalState ((hundredBytes true).setsize 3 200) []) = 100 := by
    decide
  have hstart : position 3 0 [] = 0 := rfl
  rw [KeepsPosition, Relates, hend, hstart] at hkept
  cases hkept

end System

end LuaAttic.Mmap
