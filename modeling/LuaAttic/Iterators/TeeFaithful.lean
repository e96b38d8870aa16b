import LuaAttic.Iterators.Tee

/-!
# When `tee` is faithful

The functions return the tuples of the iterator when this does not need its
control variable after the first call.  A tuple that all functions have
returned is kept until the next call, so that what is kept is what is needed
only as long as some function has not been called.
-/

namespace LuaAttic.Iterators

open LuaAttic.Lua LuaAttic.Support

variable {σ V : Type}

/-- Whatever the number of calls made, they return and something holds. -/
def Along (P : List ℕ → Consumers σ V → Prop) (len : Tuple V → ℕ) (teed : Teed σ V)
    (h : σ) (calls : List ℕ) : Prop :=
  ∀ p, p <+: calls → ∃ c, teed.run len h p = .ok c ∧ P p c

section Functions

variable {len : Tuple V → ℕ} {n : ℕ} {it : Iterator σ V} {h : σ}
  {ts : List (Tuple V)} {calls p : List ℕ} {c : Consumers σ V}

theorem forall₂_range_iff {f : ℕ → Tuple V} {m : ℕ} (hm : m ≤ ts.length) :
    List.Forall₂ SameTuple ((List.range m).map f) (ts.take m) ↔
      ∀ k < m, ∃ t', ts[k]? = some t' ∧ SameTuple (f k) t' := by
  rw [List.forall₂_iff_get]
  simp only [List.length_map, List.length_range, List.length_take, min_eq_left hm,
    List.get_eq_getElem, List.getElem_map, List.getElem_range, List.getElem_take, true_and]
  constructor
  · intro hall k hk
    exact ⟨ts[k], List.getElem?_eq_getElem (hk.trans_le hm), hall k hk hk⟩
  · intro hall k hk _
    obtain ⟨t', ht', hsame⟩ := hall k hk
    obtain ⟨_, rfl⟩ := List.getElem?_eq_some_iff.mp ht'
    exact hsame

/-- What the functions have returned is right when what was fetched is. -/
theorem same_iff (hw : Window len n it h p c) (hend : ∀ i, p.count i ≤ ts.length) :
    (∀ i ∈ Finset.Icc 1 n,
        List.Forall₂ SameTuple (c.received i) (ts.take (p.count i))) ↔
      it.Undisturbed len h ts (fastest (Finset.Icc 1 n) p) := by
  simp only [hw.received, forall₂_range_iff (hend _)]
  constructor
  · intro hall k hk
    obtain ⟨t, h', hblind⟩ := hw.buffered.fetched k (hw.bn ▸ hk)
    obtain ⟨i, hi, hlt⟩ := lt_fastest_iff.mp hk
    obtain ⟨t', ht', hsame⟩ := hall i hi k hlt
    rw [Iterator.blindTuple, hblind] at hsame
    exact ⟨t, h', t', hblind, ht', hsame⟩
  · intro hall i hi k hk
    obtain ⟨t, h', t', hblind, ht', hsame⟩ :=
      hall k (hk.trans_le (count_le_fastest hi))
    refine ⟨t', ht', ?_⟩
    rwa [Iterator.blindTuple, hblind]

theorem Window.delivered (hw : Window len n it h p c)
    (hend : ∀ i, p.count i ≤ ts.length)
    (hsame : it.Undisturbed len h ts (fastest (Finset.Icc 1 n) p)) :
    Delivered ts n p c where
  same := (same_iff hw hend).mpr hsame
  once := hw.buffered.asked.trans hw.bn

theorem Iterator.Undisturbed.mono {m m' : ℕ} (hsame : it.Undisturbed len h ts m)
    (hm : m' ≤ m) : it.Undisturbed len h ts m' :=
  fun k hk => hsame k (hk.trans_le hm)

theorem exists_window (hn : 1 ≤ n) (hp : ∀ i ∈ p, i ∈ Finset.Icc 1 n)
    (hsame : it.Undisturbed len h ts (fastest (Finset.Icc 1 n) p)) :
    ∃ c, (Teed.functions n it).run len h p = .ok c ∧ Window len n it h p c := by
  obtain ⟨c, hc⟩ : ∃ c, (Teed.functions n it).run len h p = .ok c := by
    refine exists_run hp hn fun k hk => ?_
    obtain ⟨t, h', -, hblind, -⟩ := hsame k hk
    exact ⟨t, h', hblind⟩
  exact ⟨c, hc, window_of_run hp hn hc⟩

theorem delivered_iff (hn : 1 ≤ n) (hcalls : ∀ i ∈ calls, i ∈ Finset.Icc 1 n)
    (hend : ∀ i, calls.count i ≤ ts.length) :
    Along (Delivered ts n) len (.functions n it) h calls ↔
      it.Undisturbed len h ts (fastest (Finset.Icc 1 n) calls) := by
  constructor
  · intro hall
    obtain ⟨c, hc, hdelivered⟩ := hall calls List.prefix_rfl
    exact (same_iff (window_of_run hcalls hn hc) hend).mp hdelivered.same
  · intro hsame p hp
    have hsame' := hsame.mono (fastest_mono hp)
    obtain ⟨c, hc, hw⟩ := exists_window hn (fun i hi => hcalls i (hp.subset hi)) hsame'
    refine ⟨c, hc, hw.delivered (fun i => ?_) hsame'⟩
    exact (hp.sublist.count_le i).trans (hend i)

/-! ## What is kept -/

theorem slowest_of_notMem {q : List ℕ} {i : ℕ} (hi : i ∈ Finset.Icc 1 n)
    (hq : i ∉ q) : (slowest n fun j => q.count j + 1) = 1 := by
  have hn : 1 ≤ n := (Finset.mem_Icc.mp hi).1.trans (Finset.mem_Icc.mp hi).2
  apply le_antisymm
  · have hle : (slowest n fun j => q.count j + 1) ≤ q.count i + 1 := slowest_le hi
    rwa [List.count_eq_zero_of_not_mem hq] at hle
  · exact le_slowest hn fun j _ => Nat.le_add_left 1 _

theorem isSome_buf_iff (hw : Window len n it h p c) (j : ℕ) :
    (c.tee.buf j).isSome ↔ c.tee.b1 ≤ j ∧ j ≤ fastest (Finset.Icc 1 n) p := by
  rw [hw.buffered.buf, hw.bn]
  split <;> simp_all

/-- While a function has not been called, all tuples are kept and needed. -/
theorem kept_of_notMem (hw : Window len n it h p c) {i : ℕ}
    (hi : i ∈ Finset.Icc 1 n) (hp : i ∉ p) (j : ℕ) :
    (c.tee.buf j).isSome ↔ Pending (Finset.Icc 1 n) p j := by
  have hb1 : c.tee.b1 = 1 :=
    hw.b1.trans (slowest_of_notMem hi fun h => hp (List.mem_of_mem_dropLast h))
  rw [isSome_buf_iff hw, hb1]
  constructor
  · rintro ⟨hj, hle⟩
    refine ⟨(le_fastest_iff hj).mp hle, i, hi, ?_⟩
    rwa [List.count_eq_zero_of_not_mem hp]
  · rintro ⟨hle, i', -, hlt⟩
    have hj : 0 < j := Nat.zero_lt_of_lt hlt
    exact ⟨hj, (le_fastest_iff hj).mpr hle⟩

/-- When the last of the functions moves, the first tuple is still kept. -/
theorem not_kept {q : List ℕ} {i : ℕ} (hw : Window len n it h (q ++ [i]) c)
    (hi : i ∈ Finset.Icc 1 n) (hq : i ∉ q)
    (hall : ∀ j ∈ Finset.Icc 1 n, j ∈ q ++ [i]) :
    ¬ ∀ j, (c.tee.buf j).isSome ↔ Pending (Finset.Icc 1 n) (q ++ [i]) j := by
  intro hkept
  have hb1 : c.tee.b1 = 1 := by
    rw [hw.b1, List.dropLast_concat]
    exact slowest_of_notMem hi hq
  have hone : 1 ≤ fastest (Finset.Icc 1 n) (q ++ [i]) := by
    rw [fastest_snoc hi]
    exact le_max_of_le_right (Nat.le_add_left 1 _)
  have hsome := (isSome_buf_iff hw 1).mpr ⟨hb1.le, hone⟩
  obtain ⟨-, j, hj, hlt⟩ := (hkept 1).mp hsome
  have hzero : (q ++ [i]).count j = 0 := Nat.lt_one_iff.mp hlt
  exact List.count_eq_zero.mp hzero (hall j hj)

theorem faithful_iff (hn : 1 ≤ n) (hcalls : ∀ i ∈ calls, i ∈ Finset.Icc 1 n)
    (hend : ∀ i, calls.count i ≤ ts.length) :
    Along (Faithful ts n) len (.functions n it) h calls ↔
      it.Undisturbed len h ts (fastest (Finset.Icc 1 n) calls) ∧
        ∃ i ∈ Finset.Icc 1 n, i ∉ calls := by
  constructor
  · intro hall
    have hdelivered : Along (Delivered ts n) len (.functions n it) h calls := by
      intro p hp
      obtain ⟨c, hc, hfaithful⟩ := hall p hp
      exact ⟨c, hc, hfaithful.toDelivered⟩
    refine ⟨(delivered_iff hn hcalls hend).mp hdelivered, ?_⟩
    by_contra hmoved
    push Not at hmoved
    obtain ⟨q, i, hq, hi, hiq, hlast⟩ :=
      exists_last_to_move ⟨1, Finset.mem_Icc.mpr ⟨le_rfl, hn⟩⟩ hmoved
    obtain ⟨c, hc, hfaithful⟩ := hall _ hq
    have hw := window_of_run (fun j hj => hcalls j (hq.subset hj)) hn hc
    exact not_kept hw hi hiq hlast hfaithful.kept
  · rintro ⟨hsame, i, hi, hnever⟩ p hp
    have hsame' := hsame.mono (fastest_mono hp)
    obtain ⟨c, hc, hw⟩ := exists_window hn (fun j hj => hcalls j (hp.subset hj)) hsame'
    refine ⟨c, hc, hw.delivered (fun j => ?_) hsame', kept_of_notMem hw hi ?_⟩
    · exact (hp.sublist.count_le j).trans (hend j)
    · exact fun hip => hnever (hp.subset hip)

end Functions

/-! ## The iterator itself -/

section Alone

variable {len : Tuple V → ℕ} {it : Iterator σ V} {h : σ} {ts : List (Tuple V)}

theorem Iterator.Yields.cons_inv {v : Option V} {t : Tuple V}
    (hyields : it.Yields v h (t :: ts)) :
    ∃ h', it.f it.s v h = .ok (t, h') ∧ (ts ≠ [] → it.Yields (t.at 1) h' ts) := by
  cases hyields with
  | last hcall _ => exact ⟨_, hcall, fun hne => absurd rfl hne⟩
  | more hcall hsome hrest => exact ⟨_, hcall, fun _ => hsome ▸ hrest⟩

/-- The loop over the iterator has got some of its tuples, and is to get the
others. -/
structure Alone (it : Iterator σ V) (ts : List (Tuple V)) (p : List ℕ)
    (c : Consumers σ V) : Prop where
  received : c.received 1 = ts.take (p.count 1)
  asked : c.tee.asked.length = p.count 1
  buf : ∀ j, c.tee.buf j = none
  rest : p.count 1 < ts.length → it.Yields (c.control 1) c.tee.hidden (ts.drop (p.count 1))

theorem alone_step (len : Tuple V → ℕ) {p : List ℕ} {c : Consumers σ V} (halone : Alone it ts p c)
    (hlt : p.count 1 < ts.length) :
    ∃ c', (Teed.iterator it).step len c 1 = .ok c' ∧ Alone it ts (p ++ [1]) c' := by
  have hrest := halone.rest hlt
  have hcount : (p ++ [1]).count 1 = p.count 1 + 1 := by simp
  rw [List.drop_eq_getElem_cons hlt] at hrest
  obtain ⟨h', hcall, hnext⟩ := hrest.cons_inv
  refine ⟨{
    tee := { c.tee with hidden := h', asked := c.tee.asked ++ [c.control 1] }
    control := Function.update c.control 1 (ts[p.count 1].at 1)
    received := Function.update c.received 1 (c.received 1 ++ [ts[p.count 1]]) },
    ?_, ?_, ?_, halone.buf, ?_⟩
  · rw [Teed.step, Teed.call, Iterator.call, hcall]
    rfl
  · simp only [hcount, Function.update_self]
    rw [halone.received, List.take_concat_get' _ _ hlt]
  · simp [halone.asked]
  · intro hlt'
    rw [hcount] at hlt' ⊢
    have hne : ts.drop (p.count 1 + 1) ≠ [] := fun hnil =>
      absurd (List.drop_eq_nil_iff.mp hnil) (not_le.mpr hlt')
    simpa using hnext hne

theorem exists_alone (hyields : it.Yields it.v h ts) {p : List ℕ}
    (hp : ∀ i ∈ p, i = 1) (hend : p.count 1 ≤ ts.length) :
    ∃ c, (Teed.iterator it).run len h p = .ok c ∧ Alone it ts p c := by
  induction p using List.reverseRecOn with
  | nil => exact ⟨_, rfl, rfl, rfl, fun _ => rfl, fun _ => hyields⟩
  | append_singleton q i ih =>
      obtain rfl := hp i (List.mem_append_right _ List.mem_cons_self)
      rw [List.count_append, List.count_singleton_self] at hend
      obtain ⟨c, hc, halone⟩ := ih (fun j hj => hp j (List.mem_append_left _ hj))
        (by omega)
      obtain ⟨c', hc', halone'⟩ := alone_step len halone (by omega)
      exact ⟨c', by rw [run_snoc, hc]; exact hc', halone'⟩

theorem sameTuple_refl (t : Tuple V) : SameTuple t t := by
  unfold SameTuple
  split
  · assumption
  · rfl

theorem Alone.faithful {p : List ℕ} {c : Consumers σ V} (halone : Alone it ts p c) :
    Faithful ts 1 p c where
  same i hi := by
    obtain rfl : i = 1 := by simpa using hi
    rw [halone.received]
    exact List.forall₂_same.mpr fun t _ => sameTuple_refl t
  once := by
    rw [halone.asked, fastest, Finset.Icc_self, Finset.sup_singleton]
  kept j := by
    rw [halone.buf]
    refine ⟨nofun, ?_⟩
    rintro ⟨⟨i, hi, hle⟩, i', hi', hlt⟩
    obtain rfl : i = i' := by
      rw [Finset.Icc_self, Finset.mem_singleton] at hi hi'
      exact hi.trans hi'.symm
    exact absurd hle (not_le.mpr hlt)

theorem along_iterator (hyields : it.Yields it.v h ts) {calls : List ℕ}
    (hcalls : ∀ i ∈ calls, i = 1) (hend : calls.count 1 ≤ ts.length) :
    Along (Faithful ts 1) len (.iterator it) h calls := by
  intro p hp
  obtain ⟨c, hc, halone⟩ := exists_alone hyields (fun i hi => hcalls i (hp.subset hi))
    ((hp.sublist.count_le 1).trans hend)
  exact ⟨c, hc, halone.faithful⟩

end Alone

/-! ## The condition -/

/-- The functions return what they should when the iterator does not need its
control variable after the first call; and if what is kept is also to be what is
needed, some function must not have been called.  A single function is the
iterator itself. -/
theorem tee_faithful_iff (argcheck : ℕ → String → String → Except Error Unit)
    (hargcheck : ∀ i type, argcheck i type type = .ok ()) (len : Tuple V → ℕ)
    {n : ℕ} (hn : 1 ≤ n) (it : Iterator σ V) (h : σ) (ts : List (Tuple V))
    (hyields : it.Yields it.v h ts) (calls : List ℕ)
    (hcalls : ∀ i ∈ calls, 1 ≤ i ∧ i ≤ n) (hend : ∀ i, calls.count i ≤ ts.length) :
    ∃ teed, tee argcheck (some n) it = .ok teed ∧
      (Along (Delivered ts n) len teed h calls ↔
        n = 1 ∨ it.Undisturbed len h ts (fastest (Finset.Icc 1 n) calls)) ∧
      (Along (Faithful ts n) len teed h calls ↔
        n = 1 ∨ it.Undisturbed len h ts (fastest (Finset.Icc 1 n) calls) ∧
          ∃ i ∈ Finset.Icc 1 n, i ∉ calls) := by
  refine ⟨teeOf n it, by simp [tee, hargcheck, bind, Except.bind, pure, Except.pure], ?_⟩
  by_cases hone : n = 1
  · subst hone
    have hall : Along (Faithful ts 1) len (.iterator it) h calls :=
      along_iterator hyields (fun i hi => le_antisymm (hcalls i hi).2 (hcalls i hi).1)
        (hend 1)
    simp only [teeOf, if_true, true_or, iff_true]
    refine ⟨fun p hp => ?_, hall⟩
    obtain ⟨c, hc, hfaithful⟩ := hall p hp
    exact ⟨c, hc, hfaithful.toDelivered⟩
  · have hmem : ∀ i ∈ calls, i ∈ Finset.Icc 1 n := fun i hi =>
      Finset.mem_Icc.mpr (hcalls i hi)
    simp only [teeOf, hone, if_false, false_or]
    exact ⟨delivered_iff hn hmem hend, faithful_iff hn hmem hend⟩

/-- A closure, which has its control variable for itself, is undisturbed if
there is no nil in its tuples. -/
theorem undisturbed_of_closure {len : Tuple V → ℕ} (hlen : IsBorder len)
    {it : Iterator σ V} {h : σ} {ts : List (Tuple V)}
    (hclosure : ∀ v v' h', it.f it.s v h' = it.f it.s v' h')
    (hnil : ∀ t ∈ ts, t.at 1 ≠ none → none ∉ t) (hyields : it.Yields it.v h ts) :
    it.Undisturbed len h ts ts.length := by
  have hblind : ∀ k (hk : k < ts.length), ∃ h', it.blind h k = .ok (ts[k], h') ∧
      (ts.drop (k + 1) ≠ [] → it.Yields (ts[k].at 1) h' (ts.drop (k + 1))) := by
    intro k
    induction k with
    | zero =>
        intro hk
        rw [← List.drop_zero (l := ts), List.drop_eq_getElem_cons hk] at hyields
        exact hyields.cons_inv
    | succ k ih =>
        intro hk
        obtain ⟨h', hblind, hnext⟩ := ih (Nat.lt_of_succ_lt hk)
        have hrest := hnext (by simpa using hk)
        rw [List.drop_eq_getElem_cons hk] at hrest
        obtain ⟨h'', hcall, hnext'⟩ := hrest.cons_inv
        refine ⟨h'', ?_, hnext'⟩
        rw [Iterator.blind, hblind, ← hcall]
        exact hclosure _ _ _
  intro k hk
  obtain ⟨h', hk', -⟩ := hblind k hk
  refine ⟨ts[k], h', ts[k], hk', List.getElem?_eq_getElem hk, ?_⟩
  unfold SameTuple
  split
  · next hlast => exact at_one_unpack hlast
  · next hmore => exact unpack_of_notMem hlen (hnil _ (List.getElem_mem hk) hmore)

/-- The values before the first nil. -/
def leading (t : Tuple V) : ℕ := (t.takeWhile Option.isSome).length

theorem leading_isBorder : IsBorder (leading : Tuple V → ℕ) := by
  intro t
  induction t with
  | nil => exact ⟨.inl rfl, rfl⟩
  | cons a t ih =>
      cases a with
      | none => exact ⟨.inl rfl, rfl⟩
      | some a =>
          have hcons : leading (some a :: t) = leading t + 1 := rfl
          rw [hcons]
          refine ⟨.inr ?_, ih.2⟩
          rcases ih.1 with hzero | hne
          · rw [hzero]
            exact Option.some_ne_none a
          · cases hlen : leading t with
            | zero => exact Option.some_ne_none a
            | succ m =>
                rw [hlen] at hne
                exact hne

/-- A closure that counts to two. -/
def toTwo : Iterator ℕ ℕ where
  f _ _ k := .ok (if k < 2 then ([some (k + 1)], k + 1) else ([none], k))
  s := none
  v := none

theorem toTwo_yields : toTwo.Yields none 0 [[some 1], [some 2], [none]] :=
  .more (show toTwo.f none none 0 = .ok ([some 1], 1) from rfl) rfl
    (.more (show toTwo.f none (some 1) 1 = .ok ([some 2], 2) from rfl) rfl
      (.last (show toTwo.f none (some 2) 2 = .ok ([none], 2) from rfl) rfl))

theorem toTwo_faithful :
    ∃ teed, tee (fun _ _ _ => .ok ()) (some 2) toTwo = .ok teed ∧
      Along (Faithful [[some 1], [some 2], [none]] 2) leading teed 0 [1, 1, 1] := by
  obtain ⟨teed, hteed, -, hiff⟩ := tee_faithful_iff (fun _ _ _ => .ok ())
    (fun _ _ => rfl) leading (n := 2) (by decide) toTwo 0 _ toTwo_yields [1, 1, 1]
    (by decide) (fun i => by
      by_cases hi : 1 = i <;> simp [hi])
  refine ⟨teed, hteed, hiff.mpr (.inr ⟨?_, 2, by decide, by decide⟩)⟩
  exact undisturbed_of_closure leading_isBorder (fun _ _ _ => rfl) (by decide)
    toTwo_yields

/-- `pairs(t)` for the elements of an array. -/
def pairsOf (t : List String) : Iterator Unit (ℕ ⊕ String) where
  f _ v h :=
    match v with
    | some (.inr _) => .error .badArgument
    | some (.inl k) =>
        .ok (((t[k]?).map fun x => [some (.inl (k + 1)), some (.inr x)]).getD [none], h)
    | none => .ok (((t[0]?).map fun x => [some (.inl 1), some (.inr x)]).getD [none], h)
  s := none
  v := none

/-- The second call gives the first element again; and a tuple that both
functions have returned is kept. -/
theorem tee_not_faithful :
    (∃ ts, (pairsOf ["a", "b", "c"]).Yields none () ts ∧
      ¬ Along (Delivered ts 2) leading (teeOf 2 (pairsOf ["a", "b", "c"])) () [1, 1]) ∧
    (∃ ts, toTwo.Yields none 0 ts ∧
      ¬ Along (Faithful ts 2) leading (teeOf 2 toTwo) 0 [1, 2]) := by
  constructor
  · refine ⟨[[some (.inl 1), some (.inr "a")], [some (.inl 2), some (.inr "b")],
      [some (.inl 3), some (.inr "c")], [none]],
      .more rfl rfl (.more rfl rfl (.more rfl rfl (.last rfl rfl))), fun hall => ?_⟩
    obtain ⟨c, hc, hdelivered⟩ := hall _ List.prefix_rfl
    have hreceived : ((teeOf 2 (pairsOf ["a", "b", "c"])).run leading () [1, 1]).map
        (fun c => c.received 1) =
          .ok [[some (.inl 1), some (.inr "a")], [some (.inl 1), some (.inr "a")]] := rfl
    rw [hc] at hreceived
    have heq : c.received 1 = _ := Except.ok.inj hreceived
    have hsame := hdelivered.same 1 (by decide)
    rw [heq] at hsame
    obtain ⟨-, hsecond⟩ := List.forall₂_cons.mp hsame
    have hsame2 := (List.forall₂_cons.mp hsecond).1
    rw [SameTuple, if_neg (by decide)] at hsame2
    exact absurd hsame2 (by decide)
  · refine ⟨_, toTwo_yields, fun hall => ?_⟩
    obtain ⟨c, hc, hfaithful⟩ := hall _ List.prefix_rfl
    have hbuf : ((teeOf 2 toTwo).run leading 0 [1, 2]).map
        (fun c => (c.tee.buf 1).isSome) = .ok true := rfl
    rw [hc] at hbuf
    obtain ⟨-, i, hi, hlt⟩ := (hfaithful.kept 1).mp (Except.ok.inj hbuf)
    have hcalled : ∀ i ∈ Finset.Icc 1 2, ¬ [1, 2].count i < 1 := by decide
    exact hcalled i hi hlt

end LuaAttic.Iterators
