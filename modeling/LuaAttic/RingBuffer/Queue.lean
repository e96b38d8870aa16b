import LuaAttic.RingBuffer.Refinement

/-!
# Runs of a cdata buffer

A fixed buffer of one-byte elements serves each request within its bounds as a
double-ended queue does, but for backward transfers that pass the end of the
ring: these follow the queue only where the elements do not tell that their
two parts have changed places.
-/

namespace LuaAttic.RingBuffer

open LuaAttic.Support LuaAttic.Lua

/-- The requests to a buffer. -/
inductive Request
  | push (src : Memory) (len : Int)
  | pull (dst : Memory) (len : Int) (keep : Bool)

/-- The operation on a queue of one-byte elements that a request stands
for. -/
def Request.op : Request → DequeOp Bytes
  | .push src len =>
      if len < 0 then .pushFront (elements 1 src len.natAbs)
      else .pushBack (elements 1 src len.natAbs)
  | .pull _ len keep =>
      if len < 0 then .pullBack len.natAbs keep
      else .pullFront len.natAbs keep

namespace CDataBuffer

/-- The buffer after a request, which may have raised. -/
def step (b : CDataBuffer) : Request → CDataBuffer
  | .push src len => finalState (push src len) b
  | .pull dst len keep => finalState (pull dst len keep) b

/-- The elements that a request leaves in the memory it is given. -/
def output (b : CDataBuffer) : Request → List Bytes
  | .push _ _ => []
  | .pull dst len keep =>
      match pull dst len keep b with
      | .ok r _ => elements b.elemsize r.2 len.natAbs
      | .error _ _ => []

/-- The number of elements is within the bounds that are checked. -/
def InBounds (b : CDataBuffer) : Request → Prop
  | .push _ len => len.natAbs ≤ b.size - b.length
  | .pull _ len _ => len.natAbs ≤ b.length

/-- A backward transfer does not pass the end of the ring, or its elements are
the same when the part before the end and the part after it are exchanged. -/
def InOrder (b : CDataBuffer) : Request → Prop
  | .push src len => len < 0 →
      (elements 1 src len.natAbs).rotate
          (min len.natAbs (normalize b.start b.size).toNat) =
        elements 1 src len.natAbs
  | .pull _ len _ => len < 0 →
      (b.contents.drop (b.contents.length - len.natAbs)).rotate
          (len.natAbs -
            min len.natAbs (normalize (b.start + b.length) b.size).toNat) =
        b.contents.drop (b.contents.length - len.natAbs)

instance (b : CDataBuffer) (r : Request) : Decidable (b.InBounds r) := by
  cases r <;> unfold InBounds <;> infer_instance

instance (b : CDataBuffer) (r : Request) : Decidable (b.InOrder r) := by
  cases r <;> unfold InOrder <;> infer_instance

/-! ## Single requests -/

variable {b : CDataBuffer}

theorem step_push {src : Memory} {len : Int} {s : Segs} {b' : CDataBuffer}
    (h : push src len b = .ok s b') : b.step (.push src len) = b' :=
  finalState_of_ok h

theorem step_pull {dst dst' : Memory} {len : Int} {keep : Bool} {s : Segs}
    {b' : CDataBuffer} (h : pull dst len keep b = .ok (s, dst') b') :
    b.step (.pull dst len keep) = b' ∧
      b.output (.pull dst len keep) =
        elements b.elemsize dst' len.natAbs := by
  refine ⟨finalState_of_ok h, ?_⟩
  simp only [output, h]

/-- A request of no elements changes nothing. -/
theorem push_none (hb : b.FixedBytes) (src : Memory) :
    ∃ s b', push src 0 b = .ok s b' ∧ b'.FixedBytes ∧
      b'.contents = b.contents := by
  have hle := b.length_le
  have hpush : RingBuffer.push 0 (b.start + 1) b.length b.size =
      .ok ⟨b.start + 1, b.length, ⟨1, 0, 1, 0⟩⟩ := by
    rw [RingBuffer.push, if_pos (by simp only [Int.natAbs_zero]; omega)]
    rfl
  obtain ⟨b', hok, hb'⟩ := push_of_ok hb src hpush
  refine ⟨_, b', hok, hb'.fixedBytes hb, ?_⟩
  rw [hb'.contents hb, contents_eq hb, Int.add_sub_cancel]
  rfl

theorem pull_none (hb : b.FixedBytes) (dst : Memory) (keep : Bool) :
    ∃ s dst' b', pull dst 0 keep b = .ok (s, dst') b' ∧ b'.FixedBytes ∧
      b'.contents = b.contents := by
  have hnonneg := b.length_nonneg
  have hpull : RingBuffer.pull 0 (b.start + 1) b.length b.size =
      .ok ⟨b.start + 1, b.length, ⟨1, 0, 1, 0⟩⟩ := by
    rw [RingBuffer.pull, if_pos (by simp only [Int.natAbs_zero]; omega)]
    rfl
  obtain ⟨b', hok, hb'⟩ := pull_of_ok b dst hpull keep
  refine ⟨_, _, b', hok, hb'.fixedBytes hb, ?_⟩
  rw [hb'.contents hb, contents_eq hb, Int.add_sub_cancel, ite_self, ite_self]

/-- The request is served as the queue of the contents serves it. -/
abbrev ServesAsQueue : CDataBuffer → Request → Prop :=
  Refines step output DequeOp.apply DequeOp.read contents Request.op

theorem servesAsQueue_push_iff (hb : b.FixedBytes) {src : Memory} {len : Int}
    (hbounds : b.InBounds (.push src len)) :
    (b.step (.push src len)).FixedBytes ∧
      (b.ServesAsQueue (.push src len) ↔ b.InOrder (.push src len)) := by
  have hbounds : (len.natAbs : Int) ≤ b.size - b.length := hbounds
  rcases lt_trichotomy len 0 with hneg | rfl | hpos
  · obtain ⟨s, b', hok, hb', hcontents⟩ :=
      push_backward hb src (n := len.natAbs) (by omega) hbounds
    have hlen : -(len.natAbs : Int) = len := by omega
    rw [hlen] at hok
    rw [step_push hok]
    refine ⟨hb', ?_⟩
    simp [Refines, step_push hok, hcontents, Request.op, output, InOrder, hneg]
  · obtain ⟨s, b', hok, hb', hcontents⟩ := push_none hb src
    rw [step_push hok]
    refine ⟨hb', ?_⟩
    simp [Refines, step_push hok, hcontents, Request.op, output, InOrder,
      elements]
  · obtain ⟨s, b', hok, hb', hcontents⟩ :=
      push_forward hb src (n := len.natAbs) (by omega) hbounds
    have hlen : (len.natAbs : Int) = len := by omega
    rw [hlen] at hok
    rw [step_push hok]
    refine ⟨hb', ?_⟩
    have hnot : ¬ len < 0 := by omega
    simp [Refines, step_push hok, hcontents, Request.op, output, InOrder, hnot]

theorem servesAsQueue_pull_iff (hb : b.FixedBytes) {dst : Memory} {len : Int}
    {keep : Bool} (hbounds : b.InBounds (.pull dst len keep)) :
    (b.step (.pull dst len keep)).FixedBytes ∧
      (b.ServesAsQueue (.pull dst len keep) ↔
        b.InOrder (.pull dst len keep)) := by
  have hbounds : (len.natAbs : Int) ≤ b.length := hbounds
  rcases lt_trichotomy len 0 with hneg | rfl | hpos
  · obtain ⟨s, dst', b', hok, hb', hread, hcontents⟩ :=
      pull_backward hb dst (n := len.natAbs) (by omega) hbounds keep
    have hlen : -(len.natAbs : Int) = len := by omega
    rw [hlen] at hok
    obtain ⟨hstep, hout⟩ := step_pull hok
    rw [hb.elemsize, hread] at hout
    rw [hstep]
    refine ⟨hb', ?_⟩
    simp [Refines, hstep, hout, hcontents, Request.op, InOrder, hneg]
  · obtain ⟨s, dst', b', hok, hb', hcontents⟩ := pull_none hb dst keep
    obtain ⟨hstep, hout⟩ := step_pull hok
    rw [hstep]
    refine ⟨hb', ?_⟩
    simp [Refines, hstep, hout, hcontents, Request.op, InOrder, elements]
  · obtain ⟨s, dst', b', hok, hb', hread, hcontents⟩ :=
      pull_forward hb dst (n := len.natAbs) (by omega) hbounds keep
    have hlen : (len.natAbs : Int) = len := by omega
    rw [hlen] at hok
    obtain ⟨hstep, hout⟩ := step_pull hok
    rw [hb.elemsize, hread] at hout
    rw [hstep]
    refine ⟨hb', ?_⟩
    have hnot : ¬ len < 0 := by omega
    simp [Refines, hstep, hout, hcontents, Request.op, InOrder, hnot]

theorem servesAsQueue_iff (hb : b.FixedBytes) {r : Request}
    (hbounds : b.InBounds r) :
    (b.step r).FixedBytes ∧ (b.ServesAsQueue r ↔ b.InOrder r) := by
  cases r with
  | push src len => exact servesAsQueue_push_iff hb hbounds
  | pull dst len keep => exact servesAsQueue_pull_iff hb hbounds

/-! ## Runs -/

/-- The contents and the elements that are read are those of a double-ended
queue in every part of a run within the bounds exactly when each of its
backward transfers is in order. -/
theorem follows_queue_iff (hb : b.FixedBytes) {requests : List Request}
    (hbounds : AllAllowed step InBounds requests b) :
    (∀ part, part <+: requests →
      Follows step output DequeOp.apply DequeOp.read contents Request.op part
        b) ↔ AllAllowed step InOrder requests b := by
  rw [← allAllowed_refines_iff]
  apply allAllowed_congr
  exact AllAllowed.of_invariant
    (fun _ _ h hr => (servesAsQueue_iff h hr).1)
    (fun _ _ h hr => (servesAsQueue_iff h hr).2) hb hbounds

/-- A ring of four slots with the segment of length two from a slot on. -/
def ofFour (start : Int) : CDataBuffer where
  size := 4
  size_pos := by decide
  start := start
  length := 2
  length_nonneg := by decide
  length_le := by decide
  elemsize := 1
  autogrow := false
  data := fun i => if i % 2 = 0 then 65 else 66

/-- Two different elements. -/
def pair : Memory := fun i => if i = 0 then 67 else 68

theorem follows_queue_iff_four :
    (∀ part, part <+: [.push pair (-2), .pull zeroed 3 true,
          .pull zeroed (-1) false, .push pair 1] →
      Follows step output DequeOp.apply DequeOp.read contents Request.op part
        (ofFour 3)) ↔
    AllAllowed step InOrder [.push pair (-2), .pull zeroed 3 true,
      .pull zeroed (-1) false, .push pair 1] (ofFour 3) :=
  follows_queue_iff ⟨rfl, rfl⟩ (by decide)

/-- Two buffers with the same contents: what is pushed before the head, and
what is pulled from the tail, depends on where the segment starts. -/
theorem backward_transfers_depend_on_start :
    (ofFour 1).contents = [[66], [65]] ∧ (ofFour 3).contents = [[66], [65]] ∧
      ((ofFour 3).step (.push pair (-2))).contents =
        [[67], [68], [66], [65]] ∧
      ((ofFour 1).step (.push pair (-2))).contents =
        [[68], [67], [66], [65]] ∧
      (ofFour 1).output (.pull zeroed (-2) false) = [[66], [65]] ∧
      (ofFour 3).output (.pull zeroed (-2) false) = [[65], [66]] := by
  decide

/-- A backward transfer does not pass the end of the ring. -/
def Unsplit (b : CDataBuffer) : Request → Prop
  | .push _ len => len < 0 → len.natAbs ≤ normalize b.start b.size
  | .pull _ len _ => len < 0 →
      len.natAbs ≤ normalize (b.start + b.length) b.size

theorem inOrder_of_unsplit {r : Request} (h : b.Unsplit r) : b.InOrder r := by
  cases r with
  | push src len =>
      intro hneg
      have hle := h hneg
      have hmin : min len.natAbs (normalize b.start b.size).toNat =
          (elements 1 src len.natAbs).length := by
        rw [length_elements]
        omega
      rw [hmin, List.rotate_length]
  | pull dst len keep =>
      intro hneg
      have hle := h hneg
      have hmin : len.natAbs - min len.natAbs
          (normalize (b.start + b.length) b.size).toNat = 0 := by
        omega
      rw [hmin, List.rotate_zero]

/-- Without backward transfers that pass the end of the ring, a buffer is a
double-ended queue. -/
theorem follows_queue (hb : b.FixedBytes) {requests : List Request}
    (hbounds : AllAllowed step InBounds requests b)
    (hunsplit : AllAllowed step Unsplit requests b) :
    Follows step output DequeOp.apply DequeOp.read contents Request.op requests
      b :=
  (follows_queue_iff hb hbounds).mpr
    (hunsplit.mono fun _ _ => inOrder_of_unsplit) requests List.prefix_rfl

/-- What is pushed before the head is given back by a pull from the head. -/
theorem push_pull_front (hb : b.FixedBytes) {src dst : Memory} {n : ℕ}
    (hn : 0 < n)
    (hbounds : AllAllowed step InBounds [.push src (-n), .pull dst n false] b)
    (hunsplit : AllAllowed step Unsplit [.push src (-n), .pull dst n false] b) :
    outputs step output [.push src (-n), .pull dst n false] b =
        [[], elements 1 src n] ∧
      (run step [.push src (-n), .pull dst n false] b).contents =
        b.contents := by
  obtain ⟨hcontents, hout⟩ := follows_queue hb hbounds hunsplit
  have hqueue := DequeOp.pullFront_pushFront b.contents (elements 1 src n)
  have hneg : -(n : Int) < 0 := by omega
  have hpos : ¬ (n : Int) < 0 := by omega
  rw [length_elements] at hqueue
  rw [hcontents, hout]
  simp only [List.map_cons, List.map_nil, Request.op, if_pos hneg, if_neg hpos,
    Int.natAbs_neg, Int.natAbs_natCast, run_cons, run_nil, outputs]
  exact ⟨by rw [hqueue.1]; rfl, hqueue.2⟩

/-- What is pushed after the tail is given back by a pull from the tail. -/
theorem push_pull_back (hb : b.FixedBytes) {src dst : Memory} {n : ℕ}
    (hn : 0 < n)
    (hbounds : AllAllowed step InBounds [.push src n, .pull dst (-n) false] b)
    (hunsplit : AllAllowed step Unsplit [.push src n, .pull dst (-n) false] b) :
    outputs step output [.push src n, .pull dst (-n) false] b =
        [[], elements 1 src n] ∧
      (run step [.push src n, .pull dst (-n) false] b).contents =
        b.contents := by
  obtain ⟨hcontents, hout⟩ := follows_queue hb hbounds hunsplit
  have hqueue := DequeOp.pullBack_pushBack b.contents (elements 1 src n)
  have hneg : -(n : Int) < 0 := by omega
  have hpos : ¬ (n : Int) < 0 := by omega
  rw [length_elements] at hqueue
  rw [hcontents, hout]
  simp only [List.map_cons, List.map_nil, Request.op, if_pos hneg, if_neg hpos,
    Int.natAbs_neg, Int.natAbs_natCast, run_cons, run_nil, outputs]
  exact ⟨by rw [hqueue.1]; rfl, hqueue.2⟩

end CDataBuffer

end LuaAttic.RingBuffer
