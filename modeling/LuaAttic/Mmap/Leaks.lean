import LuaAttic.Mmap.System

/-!
# Descriptors (`mmap2.lua`)

Which descriptors `mmap.map` opens and closes.  Between the opening and what
closes on failure nothing is opened or closed, so what is left open is read off
the way in which `mmap.map` returns.
-/

namespace LuaAttic.Mmap

open LuaAttic.Lua LuaAttic.Support

namespace System

/-- Descriptors are acquired by opening and released by closing. -/
def descriptors : Ledger (Call × ℤ) ℤ where
  acquires
    | (.open_ .., fd) | (.shm_open .., fd) => if fd = -1 then none else some fd
    | _ => none
  releases
    | (.close fd, _) => some fd
    | _ => none

variable (sys : System)

/-- Every descriptor that `mmap.map` opens is closed if it fails, and closed once
by `free` if it does not. -/
def LeakFree (args : Args) (h : Log) : Prop :=
  ∀ r t, sys.map args h = .ok r t → ∃ new, t = h ++ new ∧
    match r with
    | .error _ => descriptors.held new = []
    | .ok m => ∀ h', ∃ more, sys.free m h' = .ok () (h' ++ more) ∧
        descriptors.held (new ++ more) = [] ∧
        ∀ fd ∈ descriptors.acquired new,
          (descriptors.released (new ++ more)).count fd = 1

/-! ## What opens and closes nothing -/

section Keeps

/-- A program that opens and closes nothing. -/
def Keeps {α : Type} (m : Program Log α) : Prop := ∀ h, Relates descriptors.Silent m h

variable {α β : Type} {sys}

theorem keeps_pure (a : α) : Keeps (pure a) := fun h => .pure a h

theorem keeps_throw (e : Error) : Keeps (throw e : Program Log α) := fun h => .throw e h

theorem Keeps.bind {m : Program Log α} {f : α → Program Log β} (hm : Keeps m)
    (hf : ∀ a, Keeps (f a)) : Keeps (m >>= f) :=
  fun h => .bind (hm h) fun a t _ => hf a t

theorem Keeps.ite {c : Prop} [Decidable c] {m m' : Program Log α} (hm : Keeps m)
    (hm' : Keeps m') : Keeps (if c then m else m') := by
  split
  · exact hm
  · exact hm'

theorem keeps_call {c : Call} (hc : ∀ r, descriptors.Quiet (c, r)) : Keeps (sys.call c) :=
  Ledger.relates_ask hc

theorem keeps_reterrLast : Keeps (sys.reterrLast) := fun h => .get_bind (.pure _ h)

theorem keeps_failing : Keeps (do
    return (.error (← sys.reterrLast) : Except Failure α)) :=
  keeps_reterrLast.bind fun _ => keeps_pure _

theorem keeps_ftruncate (fd size : ℤ) : Keeps (sys.ftruncate fd size) :=
  (keeps_call fun _ => ⟨rfl, rfl⟩).bind fun _ => (keeps_pure _).ite keeps_failing

theorem keeps_fallocate (fd size currentSize : ℤ) :
    Keeps (sys.fallocate fd size currentSize) := by
  refine Keeps.ite ?_ ?_
  · refine (keeps_call fun _ => ⟨rfl, rfl⟩).bind fun _ => Keeps.ite ?_ (keeps_ftruncate fd size)
    exact (keeps_call fun _ => ⟨rfl, rfl⟩).bind fun _ =>
      keeps_failing.ite (keeps_ftruncate fd size)
  · refine (keeps_call fun _ => ⟨rfl, rfl⟩).bind fun _ => Keeps.ite ?_ (keeps_pure _)
    exact (keeps_call fun _ => ⟨rfl, rfl⟩).bind fun _ => keeps_pure _

theorem keeps_restore (fd ofs size : ℤ) : Keeps (sys.restore fd ofs size) :=
  (keeps_call fun _ => ⟨rfl, rfl⟩).bind fun _ =>
    keeps_failing.ite ((keeps_throw _).ite (keeps_pure _))

theorem keeps_getsize (fd : ℤ) : Keeps (sys.getsize fd) := by
  refine (keeps_call fun _ => ⟨rfl, rfl⟩).bind fun ofs => keeps_failing.ite ?_
  refine (keeps_call fun _ => ⟨rfl, rfl⟩).bind fun size => keeps_failing.ite ?_
  exact keeps_restore fd ofs size

theorem keeps_setsize (fd size : ℤ) : Keeps (sys.setsize fd size) := by
  refine (keeps_throw _).ite ?_
  refine (keeps_call fun _ => ⟨rfl, rfl⟩).bind fun ofs => keeps_failing.ite ?_
  refine (keeps_call fun _ => ⟨rfl, rfl⟩).bind fun currentSize => keeps_failing.ite ?_
  refine ((keeps_fallocate fd size currentSize).bind fun ok => ?_).ite
    ((keeps_ftruncate fd size).bind fun ok => ?_)
  · cases ok with
    | error e => exact keeps_pure _
    | ok _ => exact keeps_restore fd ofs size
  · cases ok with
    | error e => exact keeps_pure _
    | ok _ => exact keeps_restore fd ofs size

theorem keeps_filesize (fd size : Option ℤ) : Keeps (sys.filesize fd size) := by
  cases fd with
  | none => exact keeps_throw _
  | some fd =>
      cases size with
      | none => exact keeps_getsize fd
      | some size => exact keeps_setsize fd size

/-- Where there is no `close`, nothing is closed. -/
theorem keeps_mapSize (p : Parsed) (fd : Option ℤ) : Keeps (sys.mapSize p fd none) := by
  have hclosing : ∀ {α : Type} (a : α), Keeps (do sys.closing none; return a) :=
    fun a => (keeps_pure _).bind fun _ => keeps_pure a
  rw [mapSize]
  split
  · refine (keeps_filesize fd none).bind fun r => ?_
    cases r with
    | error e => exact hclosing _
    | ok filesize => exact (hclosing _).ite (keeps_pure _)
  · refine Keeps.ite ?_ ?_
    · refine (keeps_filesize fd none).bind fun r => ?_
      cases r with
      | error e => exact keeps_throw _
      | ok filesize =>
          refine Keeps.ite ((keeps_filesize fd _).bind fun r => ?_) (keeps_pure _)
          cases r with
          | error e => exact hclosing _
          | ok _ => exact keeps_pure _
    · refine (keeps_filesize fd none).bind fun r => ?_
      cases r with
      | error e => exact hclosing _
      | ok filesize => exact (keeps_pure _).ite (keeps_pure _)
  · refine Keeps.ite ?_ (keeps_pure _)
    cases fd with
    | none => exact keeps_throw _
    | some fd =>
        refine (keeps_ftruncate fd _).bind fun r => ?_
        cases r with
        | error e => exact keeps_pure _
        | ok _ => exact keeps_pure _
  · exact keeps_throw _

end Keeps

/-! ## What closes on failure -/

section Cleans

variable {α β : Type} {sys} {close : Option ℤ} {h : Log}

/-- A log after `if close then close() end`. -/
def closedLog (sys : System) (close : Option ℤ) (h : Log) : Log :=
  match close with
  | none => h
  | some fd => h ++ [(.close fd, sys.answer h (.close fd))]

/-- A program that closes what `close` closes, as the last thing, if it fails, and
opens and closes nothing else. -/
def Cleans (sys : System) (close : Option ℤ) (m : Program Log (Except Failure α)) (h : Log) :
    Prop :=
  Ends m h (fun r t => match r with
    | .error _ => ∃ t₂, descriptors.Silent h t₂ ∧ t = sys.closedLog close t₂
    | .ok _ => descriptors.Silent h t) fun _ => True

theorem cleans_ok (a : α) : Cleans sys close (pure (.ok a)) h := descriptors.silent_refl h

theorem cleans_throw (e : Error) :
    Cleans sys close (throw e : Program Log (Except Failure α)) h := trivial

theorem cleans_closing (e : Failure) :
    Cleans sys close (do sys.closing close; return (.error e : Except Failure α)) h := by
  cases close with
  | none => exact ⟨h, descriptors.silent_refl h, rfl⟩
  | some fd => exact ⟨h, descriptors.silent_refl h, rfl⟩

theorem Cleans.of_silent {m : Program Log (Except Failure α)} {t : Log}
    (hm : Cleans sys close m t) (hsilent : descriptors.Silent h t) :
    Ends m t (fun r u => match r with
      | .error _ => ∃ t₂, descriptors.Silent h t₂ ∧ u = sys.closedLog close t₂
      | .ok _ => descriptors.Silent h u) fun _ => True := by
  refine Ends.mono hm (fun r u hu => ?_) fun _ _ => trivial
  cases r with
  | error e =>
      obtain ⟨t₂, ht₂, hu⟩ := hu
      exact ⟨t₂, descriptors.silent_trans hsilent ht₂, hu⟩
  | ok a => exact descriptors.silent_trans hsilent hu

theorem Keeps.cleans_bind {m : Program Log α} {f : α → Program Log (Except Failure β)}
    (hm : Keeps m) (hf : ∀ a t, m h = .ok a t → Cleans sys close (f a) t) :
    Cleans sys close (m >>= f) h := by
  cases hrun : m h with
  | error e t => exact Ends.of_error (bind_of_error hrun) trivial
  | ok a t =>
      have hsilent : descriptors.Silent h t := (hm h).of_ok hrun
      rw [Cleans, Ends, bind_of_ok hrun]
      exact (hf a t hrun).of_silent hsilent

theorem Cleans.bind {m : Program Log (Except Failure α)}
    {f : Except Failure α → Program Log (Except Failure β)} (hm : Cleans sys close m h)
    (herror : ∀ e, f (.error e) = pure (.error e))
    (hok : ∀ a t, Cleans sys close (f (.ok a)) t) : Cleans sys close (m >>= f) h := by
  refine Ends.bind hm fun r t hr => ?_
  cases r with
  | error e =>
      rw [herror]
      exact hr
  | ok a => exact (hok a t).of_silent hr

theorem cleans_entireSize (p : Parsed) (fd : Option ℤ) :
    Cleans sys close (sys.entireSize p fd close) h := by
  refine (keeps_filesize fd none).cleans_bind fun r t _ => ?_
  cases r with
  | error e => exact cleans_closing e
  | ok filesize =>
      dsimp only
      split
      · exact cleans_closing tooShort
      · exact cleans_ok _

theorem cleans_extendedSize (p : Parsed) (fd : Option ℤ) (size : ℤ) :
    Cleans sys close (sys.extendedSize p fd close size) h := by
  refine (keeps_filesize fd none).cleans_bind fun r t _ => ?_
  cases r with
  | error e => exact cleans_throw _
  | ok filesize =>
      dsimp only
      split
      · refine (keeps_filesize fd _).cleans_bind fun r t _ => ?_
        cases r with
        | error e => exact cleans_closing e
        | ok _ => exact cleans_ok _
      · exact cleans_ok _

/-- The size that the system reports, if it lets the file be sought. -/
def Sized (sys : System) (fd : ℤ) (h : Log) (size : ℤ) : Prop :=
  ∃ ofs, ofs ≠ -1 ∧ size ≠ -1 ∧ sys.answer h (.lseek fd 0 SEEK_CUR) = ofs ∧
    sys.answer (h ++ [(.lseek fd 0 SEEK_CUR, ofs)]) (.lseek fd 0 SEEK_END) = size ∧
    sys.answer (h ++ [(.lseek fd 0 SEEK_CUR, ofs), (.lseek fd 0 SEEK_END, size)])
      (.lseek fd ofs SEEK_SET) = ofs

theorem call_bind (c : Call) (f : ℤ → Program Log α) :
    (sys.call c >>= f) h = f (sys.answer h c) (h ++ [(c, sys.answer h c)]) := rfl

theorem failing_ne_ok {a : α} {t : Log} :
    (do return (.error (← sys.reterrLast) : Except Failure α) : Program Log _) h ≠
      .ok (.ok a) t := nofun

theorem getsize_iff (fd : ℤ) (size : ℤ) :
    (∃ t, sys.getsize fd h = .ok (.ok size) t) ↔ sys.Sized fd h size := by
  constructor
  · rintro ⟨t, hrun⟩
    rw [getsize, call_bind] at hrun
    split at hrun
    · exact absurd hrun failing_ne_ok
    · next hofs =>
        rw [call_bind] at hrun
        split at hrun
        · exact absurd hrun failing_ne_ok
        · next hsize =>
            rw [restore, call_bind] at hrun
            split at hrun
            · exact absurd hrun failing_ne_ok
            · split at hrun
              · cases hrun
              · next hsame =>
                  obtain ⟨rfl, -⟩ : sys.answer _ _ = size ∧ _ = t := by
                    simpa using hrun
                  exact ⟨_, hofs, hsize, rfl, rfl, by simpa using hsame⟩
  · rintro ⟨ofs, hofs, hsize, h₁, h₂, h₃⟩
    refine ⟨h ++ [(.lseek fd 0 SEEK_CUR, ofs), (.lseek fd 0 SEEK_END, size),
      (.lseek fd ofs SEEK_SET, ofs)], ?_⟩
    simp only [getsize, restore, call_bind, h₁, if_neg hofs, h₂, if_neg hsize,
      List.append_assoc, List.cons_append, List.nil_append, h₃, ne_eq, not_true_eq_false,
      if_false]
    rfl

/-- A file that is only read and too short for the size that is given. -/
def TooShort (sys : System) (p : Parsed) (fd : ℤ) (h : Log) : Prop :=
  ∃ size filesize, p.size = some size ∧ p.accessWrite = false ∧ sys.Sized fd h filesize ∧
    filesize < p.offset + size

theorem cleans_mapSize {p : Parsed} {a : FileArg} {fd : ℤ} (hfile : p.file = some a)
    (hshort : ¬ sys.TooShort p fd h) :
    Cleans sys close (sys.mapSize p (some fd) close) h := by
  rw [mapSize, hfile]
  cases hsize : p.size with
  | none => exact cleans_entireSize p _
  | some size =>
      dsimp only
      cases hwrite : p.accessWrite with
      | true => exact cleans_extendedSize p _ size
      | false =>
          refine (keeps_filesize (some fd) none).cleans_bind fun r t hrun => ?_
          cases r with
          | error e => exact cleans_closing e
          | ok filesize =>
              dsimp only
              split
              · next hlt =>
                  have hsized := (getsize_iff fd filesize).mp ⟨t, hrun⟩
                  exact absurd ⟨size, filesize, hsize, hwrite, hsized, hlt⟩ hshort
              · exact cleans_ok _

theorem cleans_sync (p : Parsed) (fd : Option ℤ) : Cleans sys close (sys.sync p fd close) h := by
  unfold sync
  split
  · exact cleans_ok _
  · exact cleans_throw _
  · refine (keeps_call fun _ => ⟨rfl, rfl⟩).cleans_bind fun ret t _ => ?_
    split
    · exact cleans_closing _
    · exact cleans_ok _

theorem cleans_mapMemory (p : Parsed) (fd : Option ℤ) (size : ℤ) :
    Cleans sys close (sys.mapMemory p fd close size) h := by
  refine (keeps_call fun _ => ⟨rfl, rfl⟩).cleans_bind fun addr t _ => ?_
  split
  · exact cleans_closing _
  · exact cleans_ok _

theorem cleans_mapFd {p : Parsed} {a : FileArg} {fd : ℤ} (hfile : p.file = some a)
    (hshort : ¬ sys.TooShort p fd h) :
    Cleans sys close (sys.mapFd p (some fd) close) h := by
  refine (cleans_mapSize hfile hshort).bind (fun _ => rfl) fun size t => ?_
  refine (cleans_sync p _).bind (fun _ => rfl) fun _ t => ?_
  exact cleans_mapMemory p _ size

/-- A file that is too short is left open. -/
theorem mapFd_of_tooShort (close : Option ℤ) {p : Parsed} {a : FileArg} {fd : ℤ}
    (hfile : p.file = some a) (hshort : sys.TooShort p fd h) :
    ∃ t, sys.mapFd p (some fd) close h = .ok (.error tooShort) t ∧ descriptors.Silent h t := by
  obtain ⟨size, filesize, hsize, hwrite, hsized, hlt⟩ := hshort
  obtain ⟨t, hrun⟩ := (getsize_iff fd filesize).mpr hsized
  have hchecked : sys.mapSize p (some fd) close h = .ok (.error tooShort) t := by
    rw [mapSize, hfile, hsize]
    dsimp only
    rw [hwrite, if_neg Bool.false_ne_true, checkedSize,
      bind_of_ok (show sys.filesize (some fd) none h = .ok (.ok filesize) t from hrun)]
    dsimp only
    rw [if_pos hlt]
    rfl
  refine ⟨t, ?_, (keeps_getsize fd h).of_ok hrun⟩
  rw [mapFd, bind_of_ok hchecked]
  rfl

end Cleans

section Returned

variable {sys} {p : Parsed} {fd close : Option ℤ} {h t : Log}

theorem close_of_mapMemory {size : ℤ} {m : Mapped}
    (hrun : sys.mapMemory p fd close size h = .ok (.ok m) t) : m.close = close := by
  rw [mapMemory, call_bind] at hrun
  generalize Call.mmap _ _ _ _ _ _ = c at hrun
  split at hrun
  · cases close <;> cases hrun
  · cases hrun
    rfl

theorem close_of_mapFd {m : Mapped} (hrun : sys.mapFd p fd close h = .ok (.ok m) t) :
    m.close = close := by
  obtain ⟨r, t₁, -, hsize⟩ := exists_of_bind_ok hrun
  cases r with
  | error e => cases hsize
  | ok size =>
      obtain ⟨r, t₂, -, hsync⟩ := exists_of_bind_ok hsize
      cases r with
      | error e => cases hsync
      | ok _ => exact close_of_mapMemory hsync

theorem keeps_mapFd (p : Parsed) (fd : Option ℤ) : Keeps (sys.mapFd p fd none) := by
  refine (keeps_mapSize p fd).bind fun r => ?_
  cases r with
  | error e => exact keeps_pure _
  | ok size =>
      refine Keeps.bind ?_ fun r => ?_
      · unfold sync
        split
        · exact keeps_pure _
        · exact keeps_throw _
        · refine (keeps_call fun _ => ⟨rfl, rfl⟩).bind fun ret => ?_
          split
          · exact fun h => .get_bind (.pure _ h)
          · exact keeps_pure _
      · cases r with
        | error e => exact keeps_pure _
        | ok _ =>
            refine (keeps_call fun _ => ⟨rfl, rfl⟩).bind fun addr => ?_
            split
            · exact fun h => .get_bind (.pure _ h)
            · exact keeps_pure _

theorem ftruncate_returns (fd size : ℤ) (h : Log) :
    Ends (sys.ftruncate fd size) h (fun _ _ => True) fun _ => False := by
  rw [ftruncate, Ends, call_bind]
  by_cases hret : sys.answer h (.ftruncate fd size) = 0
  · rw [if_pos hret]
    trivial
  · rw [if_neg hret]
    trivial

/-- Shared memory is mapped or not, and nothing is raised. -/
theorem mapFd_returns {fd size : ℤ} (hfile : p.file = none) (hsize : p.size = some size)
    (h : Log) : ∃ r t, sys.mapFd p (some fd) none h = .ok r t := by
  have hmapped : ∀ size t, Ends (sys.mapMemory p (some fd) none size) t (fun _ _ => True)
      fun _ => False := by
    intro size t
    rw [mapMemory, Ends, call_bind]
    generalize Call.mmap _ _ _ _ _ _ = c
    by_cases hret : sys.answer t c = -1
    · rw [if_pos hret]
      trivial
    · rw [if_neg hret]
      trivial
  have hshared : Ends (sys.mapSize p (some fd) none) h (fun _ _ => True) fun _ => False := by
    rw [mapSize, hfile, hsize]
    dsimp only
    rw [sharedSize]
    split
    · refine Ends.bind (ftruncate_returns fd size h) fun r t _ => ?_
      cases r with
      | error e => exact Ends.pure trivial
      | ok _ => exact Ends.pure trivial
    · exact Ends.pure trivial
  have hsync : sys.sync p (some fd) none = pure (.ok ()) := by
    unfold sync
    rw [hfile]
  have hrest : Ends (sys.mapFd p (some fd) none) h (fun _ _ => True) fun _ => False := by
    refine Ends.bind hshared fun r t _ => ?_
    cases r with
    | error e => exact Ends.pure trivial
    | ok size =>
        dsimp only
        rw [hsync]
        exact hmapped size t
  obtain ⟨r, t, hrun, -⟩ := hrest.exists_ok
  exact ⟨r, t, hrun⟩

end Returned

/-! ## What is left open -/

section LeakFree

variable {sys} {args : Args} {p : Parsed} {h : Log}

theorem check_eq_ok {cond : Bool} {u : Unit} (hok : check cond = .ok u) : cond = true := by
  cases cond with
  | true => rfl
  | false => cases hok

/-- A file or a size is given, and not a file with a tag name. -/
theorem parsed_file (hp : sys.parseArgs args = .ok p) :
    (p.file = none → p.size.isSome) ∧ (p.file.isSome → p.tagname = none) := by
  obtain ⟨access, -, hp⟩ := exists_of_bind_eq_ok hp
  obtain ⟨_, hsize, hp⟩ := exists_of_bind_eq_ok hp
  obtain ⟨_, htag, hp⟩ := exists_of_bind_eq_ok hp
  obtain ⟨_, -, hp⟩ := exists_of_bind_eq_ok hp
  obtain ⟨_, -, hp⟩ := exists_of_bind_eq_ok hp
  obtain ⟨_, -, hp⟩ := exists_of_bind_eq_ok hp
  obtain ⟨_, -, hp⟩ := exists_of_bind_eq_ok hp
  obtain ⟨_, -, hp⟩ := exists_of_bind_eq_ok hp
  obtain ⟨_, -, hp⟩ := exists_of_bind_eq_ok hp
  obtain rfl := Except.ok.inj hp
  have hsize := check_eq_ok hsize
  have htag := check_eq_ok htag
  constructor
  · intro hfile
    simpa [show args.file = none from hfile] using hsize
  · intro hfile
    simpa [show args.file.isSome = true from hfile] using htag

/-- The open call for a file or, with `shm`, for shared memory. -/
def openCall (sys : System) (p : Parsed) (path : Bytes) (shm : Bool) : Call :=
  let oflags := if p.accessWrite then 2 ||| (if sys.osx then 0x200 else 0o100) else 0
  let perms := 0o444 + (if p.accessWrite then 0o222 else 0) + if p.accessExec then 0o111 else 0
  if shm then .shm_open path oflags perms else .open_ path oflags perms

theorem openFile_eq {path : Bytes} {shm : Bool} {fd : ℤ}
    (hfd : sys.answer h (sys.openCall p path shm) = fd) :
    sys.openFile path p.accessWrite p.accessExec shm h =
      if fd = -1 then
        .ok (.error (sys.reterr (sys.errno (h ++ [(sys.openCall p path shm, fd)]))))
          (h ++ [(sys.openCall p path shm, fd)])
      else .ok (.ok fd) (h ++ [(sys.openCall p path shm, fd)]) := by
  have hopen : sys.openFile path p.accessWrite p.accessExec shm =
      sys.call (sys.openCall p path shm) >>= fun fd =>
        if fd = -1 then do return .error (← sys.reterrLast) else return .ok fd := rfl
  rw [hopen, call_bind, hfd]
  by_cases hfail : fd = -1
  · rw [if_pos hfail, if_pos hfail]
    rfl
  · rw [if_neg hfail, if_neg hfail]
    rfl

/-- What `mmap.map` leaves open: a file that is only read and too short for the
size that is given, and all shared memory. -/
def LeavesOpen (sys : System) (args : Args) (h : Log) : Prop :=
  ∃ p, sys.parseArgs args = .ok p ∧
    ((∃ path fd, p.file = some (.name path) ∧ fd ≠ -1 ∧
      sys.answer h (sys.openCall p path false) = fd ∧
      sys.TooShort p fd (h ++ [(sys.openCall p path false, fd)])) ∨
    (∃ tagname, p.file = none ∧ p.tagname = some tagname ∧
      sys.answer h (sys.openCall p (lit "/" ++ tagname) true) ≠ -1))

theorem map_of_parsed (hp : sys.parseArgs args = .ok p) :
    sys.map args h = (sys.openArg p >>= fun r => match r with
      | .error e => return .error e
      | .ok (fd, close) => sys.mapFd p fd close) h := by
  rw [map, hp]
  rfl

theorem map_of_name {path : Bytes} {fd : ℤ} (hp : sys.parseArgs args = .ok p)
    (hfile : p.file = some (.name path))
    (hfd : sys.answer h (sys.openCall p path false) = fd) :
    sys.map args h =
      if fd = -1 then
        .ok (.error (sys.reterr (sys.errno (h ++ [(sys.openCall p path false, fd)]))))
          (h ++ [(sys.openCall p path false, fd)])
      else sys.mapFd p (some fd) (some fd) (h ++ [(sys.openCall p path false, fd)]) := by
  have hopen := openFile_eq (p := p) hfd
  rw [map_of_parsed hp, openArg, hfile]
  dsimp only
  rw [bind_assoc]
  by_cases hfail : fd = -1
  · rw [if_pos hfail] at hopen ⊢
    rw [bind_of_ok hopen]
    rfl
  · rw [if_neg hfail] at hopen ⊢
    rw [bind_of_ok hopen]
    rfl

theorem map_of_tagname {tagname : Bytes} {fd : ℤ} (hp : sys.parseArgs args = .ok p)
    (hfile : p.file = none) (htag : p.tagname = some tagname)
    (hfd : sys.answer h (sys.openCall p (lit "/" ++ tagname) true) = fd) :
    sys.map args h =
      if fd = -1 then
        .ok (.error (sys.reterr (sys.errno
          (h ++ [(sys.openCall p (lit "/" ++ tagname) true, fd)]))))
          (h ++ [(sys.openCall p (lit "/" ++ tagname) true, fd)])
      else sys.mapFd p (some fd) none
        (h ++ [(sys.openCall p (lit "/" ++ tagname) true, fd)]) := by
  have hopen := openFile_eq (p := p) hfd
  rw [map_of_parsed hp, openArg, hfile]
  dsimp only
  rw [htag, bind_assoc]
  by_cases hfail : fd = -1
  · rw [if_pos hfail] at hopen ⊢
    rw [bind_of_ok hopen]
    rfl
  · rw [if_neg hfail] at hopen ⊢
    rw [bind_of_ok hopen]
    rfl

theorem closedLog_some (sys : System) (fd : ℤ) (t : Log) :
    ∃ r, sys.closedLog (some fd) t = t ++ [(.close fd, r)] := ⟨_, rfl⟩

theorem free_eq (sys : System) (m : Mapped) (t : Log) : ∃ r, sys.free m t =
    .ok () (sys.closedLog m.close (t ++ [(.munmap m.addr m.size, r)])) := by
  refine ⟨sys.answer t (.munmap m.addr m.size), ?_⟩
  rw [free, call_bind]
  cases m.close with
  | none => rfl
  | some fd => rfl

/-- Where nothing is opened and nothing is closed, `free` closes nothing. -/
theorem leakFree_of_keeps (hkeeps : ∀ r t, sys.map args h = .ok r t →
    descriptors.Silent h t ∧ ∀ m, r = .ok m → m.close = none) : sys.LeakFree args h := by
  intro r t hrun
  obtain ⟨⟨new, rfl, hquiet⟩, hclose⟩ := hkeeps r t hrun
  have hheld : descriptors.held new = [] := descriptors.foldl_step_of_quiet hquiet []
  refine ⟨new, rfl, ?_⟩
  cases r with
  | error e => exact hheld
  | ok m =>
      intro h'
      obtain ⟨ret, hfree⟩ := sys.free_eq m h'
      rw [hclose m rfl] at hfree
      refine ⟨[(.munmap m.addr m.size, ret)], hfree, ?_, ?_⟩
      · rw [descriptors.held_append, hheld]
        rfl
      · rw [descriptors.acquired_of_quiet hquiet]
        exact fun fd hfd => absurd hfd List.not_mem_nil

theorem acquires_open (sys : System) (p : Parsed) (path : Bytes) (shm : Bool) {fd : ℤ}
    (hfd : fd ≠ -1) :
    descriptors.acquires (sys.openCall p path shm, fd) = some fd ∧
      descriptors.releases (sys.openCall p path shm, fd) = none := by
  cases shm with
  | true => exact ⟨if_neg hfd, rfl⟩
  | false => exact ⟨if_neg hfd, rfl⟩

theorem held_of_failed_open {path : Bytes} {shm : Bool} :
    descriptors.held [(sys.openCall p path shm, -1)] = [] := by
  cases shm with
  | true => rfl
  | false => rfl

/-- A file that was opened by its name is closed. -/
theorem leakFree_of_name {path : Bytes} {fd : ℤ} (hp : sys.parseArgs args = .ok p)
    (hfile : p.file = some (.name path)) (hne : fd ≠ -1)
    (hfd : sys.answer h (sys.openCall p path false) = fd)
    (hshort : ¬ sys.TooShort p fd (h ++ [(sys.openCall p path false, fd)])) :
    sys.LeakFree args h := by
  intro r t hrun
  obtain ⟨hacquires, hreleases⟩ := acquires_open sys p path false hne
  rw [map_of_name hp hfile hfd, if_neg hne] at hrun
  have hcleans : Cleans sys (some fd) (sys.mapFd p (some fd) (some fd)) _ :=
    cleans_mapFd hfile hshort
  rw [Cleans, Ends, hrun] at hcleans
  cases r with
  | error e =>
      obtain ⟨t₂, ⟨q, rfl, hq⟩, rfl⟩ := hcleans
      obtain ⟨ret, hclosed⟩ := sys.closedLog_some fd (h ++ [(sys.openCall p path false, fd)] ++ q)
      refine ⟨[(sys.openCall p path false, fd)] ++ q ++ [(.close fd, ret)], ?_, ?_⟩
      · rw [hclosed, List.append_assoc, List.append_assoc, List.append_assoc]
      · rw [descriptors.held_append, List.singleton_append,
          descriptors.held_of_acquires hq hacquires hreleases]
        exact List.erase_cons_head fd []
  | ok m =>
      obtain ⟨q, rfl, hq⟩ := hcleans
      refine ⟨[(sys.openCall p path false, fd)] ++ q, List.append_assoc _ _ _, fun h' => ?_⟩
      have hclose : m.close = some fd := close_of_mapFd hrun
      obtain ⟨ret, hfree⟩ := sys.free_eq m h'
      obtain ⟨ret', hclosed⟩ := sys.closedLog_some fd (h' ++ [(.munmap m.addr m.size, ret)])
      rw [hclose, hclosed, List.append_assoc] at hfree
      refine ⟨_, hfree, ?_, ?_⟩
      · rw [descriptors.held_append, List.singleton_append,
          descriptors.held_of_acquires hq hacquires hreleases]
        exact List.erase_cons_head fd []
      · rw [descriptors.released_append, List.singleton_append,
          descriptors.acquired_of_acquires hq hacquires,
          descriptors.released_of_acquires hq hreleases]
        rintro fd' hfd'
        obtain rfl := List.mem_singleton.mp hfd'
        exact List.count_singleton_self

/-- A descriptor that is left open, with nothing that closes it. -/
theorem not_leakFree_of_silent {path : Bytes} {shm : Bool} {fd : ℤ}
    {r : Except Failure Mapped} {t : Log} (hne : fd ≠ -1)
    (hrun : sys.map args h = .ok r t)
    (hsilent : descriptors.Silent (h ++ [(sys.openCall p path shm, fd)]) t)
    (hclose : ∀ m, r = .ok m → m.close = none) : ¬ sys.LeakFree args h := by
  intro hfree
  obtain ⟨q, rfl, hq⟩ := hsilent
  obtain ⟨hacquires, hreleases⟩ := acquires_open sys p path shm hne
  obtain ⟨new, hnew, hprop⟩ := hfree r _ hrun
  obtain rfl : (sys.openCall p path shm, fd) :: q = new := by
    rw [List.append_assoc] at hnew
    exact List.append_cancel_left hnew
  cases r with
  | error e =>
      have hheld : descriptors.held ((sys.openCall p path shm, fd) :: q) = [] := hprop
      rw [descriptors.held_of_acquires hq hacquires hreleases] at hheld
      cases hheld
  | ok m =>
      obtain ⟨more, hmore, -, hcount⟩ := hprop []
      obtain ⟨ret, hrun'⟩ := sys.free_eq m []
      rw [hclose m rfl] at hrun'
      obtain rfl : [(.munmap m.addr m.size, ret)] = more := by
        have hlog := hrun'.symm.trans hmore
        simpa [closedLog] using hlog
      have hone := hcount fd (by
        rw [descriptors.acquired_of_acquires hq hacquires]
        exact List.mem_singleton_self fd)
      rw [descriptors.released_append, descriptors.released_of_acquires hq hreleases] at hone
      cases hone

theorem leakFree_of_failed_open {path : Bytes} {shm : Bool} {e : Failure}
    (hrun : sys.map args h = .ok (.error e) (h ++ [(sys.openCall p path shm, -1)])) :
    sys.LeakFree args h := by
  intro r t hrun'
  obtain ⟨rfl, rfl⟩ := EStateM.Result.ok.inj (hrun.symm.trans hrun')
  exact ⟨_, rfl, held_of_failed_open⟩

/-- Where `mmap.map` opens nothing. -/
theorem leakFree_of_mapFd (p : Parsed) (fd : Option ℤ)
    (hrun : sys.map args h = sys.mapFd p fd none h) :
    sys.LeakFree args h := by
  refine leakFree_of_keeps fun r t hrt => ?_
  rw [hrun] at hrt
  refine ⟨(keeps_mapFd p fd h).of_ok hrt, ?_⟩
  rintro m rfl
  exact close_of_mapFd hrt

theorem leavesOpen_iff (hp : sys.parseArgs args = .ok p) : sys.LeavesOpen args h ↔
    (∃ path fd, p.file = some (.name path) ∧ fd ≠ -1 ∧
      sys.answer h (sys.openCall p path false) = fd ∧
      sys.TooShort p fd (h ++ [(sys.openCall p path false, fd)])) ∨
    (∃ tagname, p.file = none ∧ p.tagname = some tagname ∧
      sys.answer h (sys.openCall p (lit "/" ++ tagname) true) ≠ -1) := by
  constructor
  · rintro ⟨q, hq, hcases⟩
    obtain rfl := Except.ok.inj (hq.symm.trans hp)
    exact hcases
  · exact fun hcases => ⟨p, hp, hcases⟩

theorem leakFree_iff_of_name {path : Bytes} (hp : sys.parseArgs args = .ok p)
    (hfile : p.file = some (.name path)) :
    sys.LeakFree args h ↔ ¬ sys.LeavesOpen args h := by
  obtain ⟨fd, hfd⟩ : ∃ fd, sys.answer h (sys.openCall p path false) = fd := ⟨_, rfl⟩
  have hmap := map_of_name hp hfile hfd
  rw [leavesOpen_iff hp, hfile]
  by_cases hfail : fd = -1
  · subst hfail
    rw [if_pos rfl] at hmap
    refine iff_of_true (leakFree_of_failed_open hmap) ?_
    rintro (⟨path', fd, hpath, hne, hfd', -⟩ | ⟨_, hnone, -⟩)
    · obtain rfl := FileArg.name.inj (Option.some.inj hpath)
      exact hne (hfd'.symm.trans hfd)
    · cases hnone
  · rw [if_neg hfail] at hmap
    by_cases hshort : sys.TooShort p fd (h ++ [(sys.openCall p path false, fd)])
    · obtain ⟨t, hrun, hsilent⟩ := mapFd_of_tooShort (some fd) hfile hshort
      refine iff_of_false ?_ (not_not_intro (.inl ⟨path, fd, rfl, hfail, hfd, hshort⟩))
      exact not_leakFree_of_silent hfail (hmap.trans hrun) hsilent nofun
    · refine iff_of_true (leakFree_of_name hp hfile hfail hfd hshort) ?_
      rintro (⟨path', fd', hpath, -, hfd', hshort'⟩ | ⟨_, hnone, -⟩)
      · obtain rfl := FileArg.name.inj (Option.some.inj hpath)
        obtain rfl := hfd.symm.trans hfd'
        exact hshort hshort'
      · cases hnone

theorem leakFree_iff_of_tagname {tagname : Bytes} (hp : sys.parseArgs args = .ok p)
    (hfile : p.file = none) (htag : p.tagname = some tagname) :
    sys.LeakFree args h ↔ ¬ sys.LeavesOpen args h := by
  obtain ⟨fd, hfd⟩ : ∃ fd, sys.answer h (sys.openCall p (lit "/" ++ tagname) true) = fd :=
    ⟨_, rfl⟩
  have hmap := map_of_tagname hp hfile htag hfd
  rw [leavesOpen_iff hp, hfile, htag]
  by_cases hfail : fd = -1
  · subst hfail
    rw [if_pos rfl] at hmap
    refine iff_of_true (leakFree_of_failed_open hmap) ?_
    rintro (⟨_, _, hname, -⟩ | ⟨tagname', -, hsame, hne⟩)
    · cases hname
    · obtain rfl := Option.some.inj hsame
      exact hne hfd
  · rw [if_neg hfail] at hmap
    obtain ⟨size, hsize⟩ := Option.isSome_iff_exists.mp ((parsed_file hp).1 hfile)
    obtain ⟨r, t, hrun⟩ := mapFd_returns hfile hsize
      (h ++ [(sys.openCall p (lit "/" ++ tagname) true, fd)])
    have hne : sys.answer h (sys.openCall p (lit "/" ++ tagname) true) ≠ -1 := by
      rwa [hfd]
    refine iff_of_false ?_ (not_not_intro (.inr ⟨tagname, rfl, rfl, hne⟩))
    refine not_leakFree_of_silent hfail (hmap.trans hrun) ((keeps_mapFd p _ _).of_ok hrun) ?_
    rintro m rfl
    exact close_of_mapFd hrun

/-- `mmap.map` leaks no descriptor unless a file that is only read turns out too
short, or shared memory is opened. -/
theorem leakFree_iff (sys : System) (args : Args) (h : Log) :
    sys.LeakFree args h ↔ ¬ sys.LeavesOpen args h := by
  cases hp : sys.parseArgs args with
  | error e =>
      refine iff_of_true (fun r t hrun => ?_) ?_
      · rw [map, hp] at hrun
        cases hrun
      · rintro ⟨p, hp', -⟩
        rw [hp] at hp'
        cases hp'
  | ok p =>
      -- where nothing is opened the descriptor is that of an open file, or none
      have hopened : ∀ fd, sys.openArg p h = .ok (.ok (fd, none)) h →
          (∀ path, p.file ≠ some (.name path)) → (p.file = none → p.tagname = none) →
          (sys.LeakFree args h ↔ ¬ sys.LeavesOpen args h) := by
        intro fd hopen hname htag
        refine iff_of_true (leakFree_of_mapFd p fd ?_) ?_
        · rw [map_of_parsed hp, bind_of_ok hopen]
        · rw [leavesOpen_iff hp]
          rintro (⟨path, _, hfile, -⟩ | ⟨tagname, hfile, hsome, -⟩)
          · exact hname path hfile
          · rw [htag hfile] at hsome
            cases hsome
      cases hfile : p.file with
      | none =>
          cases htag : p.tagname with
          | some tagname => exact leakFree_iff_of_tagname hp hfile htag
          | none =>
              refine hopened none ?_ (fun path hname => ?_) fun _ => htag
              · rw [openArg, hfile]
                dsimp only
                rw [htag]
                rfl
              · rw [hfile] at hname
                cases hname
      | some a =>
          cases a with
          | name path => exact leakFree_iff_of_name hp hfile
          | handle fd =>
              refine hopened (some fd) ?_ (fun path hname => ?_) fun hnone => ?_
              · rw [openArg, hfile]
                rfl
              · rw [hfile] at hname
                cases hname
              · rw [hfile] at hnone
                cases hnone
          | other =>
              have htag := (parsed_file hp).2 (by rw [hfile]; rfl)
              refine hopened none ?_ (fun path hname => ?_) fun _ => htag
              · rw [openArg, hfile]
                dsimp only
                rw [htag]
                rfl
              · rw [hfile] at hname
                cases hname

/-- A system with one file, which is empty. -/
def emptyFile : System where
  platform := .linux
  pagesize := 4096
  answer _ c :=
    match c with
    | .open_ .. => 3
    | _ => 0
  errno _ := 0
  strerror _ := ""

/-- A file that is empty, mapped for reading with a size. -/
theorem short_file_left_open : ¬ ∀ (sys : System) (args : Args) (h : Log),
    sys.LeakFree args h := by
  intro hall
  have hrun : emptyFile.map { file := some (.name (lit "f")), size := some 10 } [] =
      .ok (.error tooShort) [(.open_ (lit "f") 0 0o444, 3), (.lseek 3 0 1, 0),
        (.lseek 3 0 2, 0), (.lseek 3 0 0, 0)] := by
    rfl
  obtain ⟨new, hnew, hheld⟩ := hall _ _ _ _ _ hrun
  obtain rfl := hnew
  exact absurd hheld (by decide)

end LeakFree

end System

end LuaAttic.Mmap
