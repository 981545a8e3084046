import StackCompiler.Proofs.FrameLayout
import Mathlib.Data.List.Range

/-!
# Slots in use

A frame gives out slots in two ways: to variables for good, and to arguments until they are
released. The frame counts the reserved slots, but does not know which ones they are. A ledger
writes them down, so that one can say what it means that no slot is given out twice: the slots of
the variables and the reserved ones are all different and lie in the frame, and a release gives back
the slot that was reserved last.

This is so exactly as long as a slot is released before the next variable is declared. A variable
declared behind a reserved slot is what a release then gives back.
-/
namespace StackCompiler

/-- The slots of a variable. -/
def Variable.slots (v : Variable) : List Nat :=
  List.range' v.shift v.size

theorem Variable.mem_slots {v : Variable} {n : Nat} :
    n ∈ v.slots ↔ v.shift ≤ n ∧ n < v.shift + v.size :=
  List.mem_range'_1

namespace Frame

/-- What can be asked of a frame. -/
inductive Request where
  | declare (t : Term)
  | stage
  | release

/-- A frame and the slots that are reserved in it, the last one first. -/
structure Ledger where
  frame : Frame
  reserved : List Nat

namespace Ledger

/-- A request that fails changes nothing. -/
def step (l : Ledger) : Request → Ledger
  | .declare t =>
    match l.frame.declare t with
    | .ok (_, frame) => ⟨frame, l.reserved⟩
    | .error _ => l
  | .stage => ⟨l.frame.stage.2, l.frame.stage.1 :: l.reserved⟩
  | .release =>
    match l.frame.release with
    | some (_, frame) => ⟨frame, l.reserved.tail⟩
    | none => l

/-- Requests to a new frame, one after the other. -/
def run (base : Register) (requests : List Request) : Ledger :=
  requests.foldl step ⟨.empty base, []⟩

theorem run_concat (base : Register) (requests : List Request) (r : Request) :
    run base (requests ++ [r]) = (run base requests).step r := by
  simp [run]

/-- The slots of the variables, and those that are reserved. -/
def held (l : Ledger) : List Nat :=
  l.frame.declared.flatMap Variable.slots ++ l.reserved

/-- No slot is held twice, and all lie in the frame. -/
structure Apart (l : Ledger) : Prop where
  nodup : l.held.Nodup
  inside : ∀ n ∈ l.held, n < l.frame.size

/-- A release would give back the slot that was reserved last. -/
def ReleasesLast (l : Ledger) : Prop :=
  ∀ n ∈ l.frame.release.map Prod.fst, l.reserved.head? = some n

/-- No variable is declared behind the slot that was reserved last. -/
def NothingBehind (l : Ledger) : Prop :=
  ∀ n ∈ l.reserved.head?, ∀ v ∈ l.frame.declared, v.shift < n

/-- What a request does. -/
theorem step_cases (l : Ledger) (r : Request) :
    (∃ t v frame, r = .declare t ∧ l.frame.declare t = .ok (v, frame) ∧
        l.step r = ⟨frame, l.reserved⟩) ∨
      (r = .stage ∧ l.step r = ⟨l.frame.stage.2, l.frame.size :: l.reserved⟩) ∨
      (r = .release ∧ l.frame.staged ≠ 0 ∧
        l.step r = ⟨{ l.frame with size := l.frame.size - 1, staged := l.frame.staged - 1 },
          l.reserved.tail⟩) ∨
      l.step r = l := by
  cases r with
  | declare t =>
    cases h : l.frame.declare t with
    | error e => exact .inr (.inr (.inr (by simp [step, h])))
    | ok declared =>
      obtain ⟨v, frame⟩ := declared
      exact .inl ⟨t, v, frame, rfl, h, by simp [step, h]⟩
  | stage => exact .inr (.inl ⟨rfl, rfl⟩)
  | release =>
    by_cases h : l.frame.staged = 0
    · exact .inr (.inr (.inr (by simp [step, Frame.release, h])))
    · exact .inr (.inr (.inl ⟨rfl, h, by simp [step, Frame.release, h]⟩))

/-- What holds in whatever order requests come. -/
structure Counted (l : Ledger) : Prop where
  count : l.reserved.length = l.frame.staged
  positive : ∀ v ∈ l.frame.declared, 1 ≤ v.size

theorem Counted.step {l : Ledger} (h : l.Counted) (r : Request) : (l.step r).Counted := by
  rcases l.step_cases r with ⟨t, v, frame, -, hdeclare, hstep⟩ | ⟨-, hstep⟩ | ⟨-, hstaged, hstep⟩ |
    hstep
  · obtain ⟨id, name, left, index, length, rfl, -, hlength, rfl, -, rfl⟩ :=
      declare_eq_ok.mp hdeclare
    rw [hstep]
    refine ⟨h.count, ?_⟩
    intro w hw
    rcases List.mem_append.mp hw with hw | hw
    · exact h.positive w hw
    · rw [List.mem_singleton.mp hw]
      exact one_le_of_lengthOf? hlength
  · rw [hstep]
    exact ⟨congrArg (· + 1) h.count, h.positive⟩
  · rw [hstep]
    refine ⟨?_, h.positive⟩
    rw [List.length_tail, h.count]
  · rw [hstep]
    exact h

theorem Counted.exists_reserved {l : Ledger} (h : l.Counted) (hstaged : l.frame.staged ≠ 0) :
    ∃ n rest, l.reserved = n :: rest := by
  apply List.exists_cons_of_length_pos
  rw [h.count]
  exact Nat.pos_of_ne_zero hstaged

theorem counted_run (base : Register) (requests : List Request) : (run base requests).Counted := by
  induction requests using List.reverseRecOn with
  | nil => exact ⟨rfl, by simp [run, Frame.empty]⟩
  | append_singleton requests r ih =>
    rw [run_concat]
    exact ih.step r

/-- The slots held are those of the frame, each once. -/
structure Tight (l : Ledger) : Prop where
  perm : l.held.Perm (List.range l.frame.size)
  order : l.reserved.Pairwise (· > ·)

theorem Tight.apart {l : Ledger} (h : l.Tight) : l.Apart where
  nodup := h.perm.nodup_iff.mpr List.nodup_range
  inside _ hn := List.mem_range.mp (h.perm.mem_iff.mp hn)

/-- The slots of variables are not reserved. -/
theorem Apart.not_reserved {l : Ledger} (h : l.Apart) {v : Variable} {n m : Nat}
    (hv : v ∈ l.frame.declared) (hn : n ∈ v.slots) (hm : m ∈ l.reserved) :
    n ≠ m :=
  (List.nodup_append.mp h.nodup).2.2 n (List.mem_flatMap.mpr ⟨v, hv, hn⟩) m hm

/-- With nothing behind it, the slot that was reserved last is at the end of the frame. -/
theorem Tight.head_eq {l : Ledger} (h : l.Tight) (hbehind : l.NothingBehind) {n : Nat}
    {rest : List Nat} (hreserved : l.reserved = n :: rest) : n + 1 = l.frame.size := by
  have hn : n ∈ l.reserved := by simp [hreserved]
  have hinside : n < l.frame.size := h.apart.inside n (List.mem_append_right _ hn)
  have hend : l.frame.size - 1 ∈ l.held := by
    rw [h.perm.mem_iff, List.mem_range]
    omega
  rcases List.mem_append.mp hend with hend | hend
  · -- the last slot of the frame would be that of a variable, and `n` behind it
    obtain ⟨v, hv, hslot⟩ := List.mem_flatMap.mp hend
    have hlow : v.shift < n := hbehind n (by simp [hreserved]) v hv
    have hother : n ∉ v.slots := fun hmem => h.apart.not_reserved hv hmem hn rfl
    rw [Variable.mem_slots] at hslot hother
    omega
  · have horder := h.order
    rw [hreserved, List.pairwise_cons] at horder
    rw [hreserved] at hend
    rcases List.mem_cons.mp hend with hend | hend
    · omega
    · have hlater := horder.1 _ hend
      omega

/-- A variable takes the slots from the end of the frame on. -/
theorem Tight.declare {l : Ledger} (h : l.Tight) {t : Term} {v : Variable} {frame : Frame}
    (hdeclare : l.frame.declare t = .ok (v, frame)) : Tight ⟨frame, l.reserved⟩ := by
  obtain ⟨id, name, left, index, length, rfl, -, -, hv, -, rfl⟩ := declare_eq_ok.mp hdeclare
  refine ⟨?_, h.order⟩
  have hslots : v.slots = List.range' l.frame.size v.size := by rw [Variable.slots, hv]
  calc List.Perm ((l.frame.declared ++ [v]).flatMap Variable.slots ++ l.reserved)
        (l.frame.declared.flatMap Variable.slots ++ (v.slots ++ l.reserved)) := by simp
    List.Perm _ (l.held ++ v.slots) := by
        rw [held, List.append_assoc]
        exact List.perm_append_comm.append_left _
    List.Perm _ (List.range l.frame.size ++ v.slots) := h.perm.append_right _
    _ = List.range (l.frame.size + v.size) := by
        rw [hslots, List.range_add, List.range'_eq_map_range]

theorem Tight.stage {l : Ledger} (h : l.Tight) :
    Tight ⟨l.frame.stage.2, l.frame.size :: l.reserved⟩ := by
  constructor
  · show (_ ++ l.frame.size :: l.reserved).Perm (List.range (l.frame.size + 1))
    rw [List.range_succ]
    exact List.perm_middle.trans ((h.perm.cons _).trans (List.perm_append_singleton _ _).symm)
  · rw [List.pairwise_cons]
    refine ⟨?_, h.order⟩
    intro n hn
    exact h.apart.inside n (List.mem_append_right _ hn)

/-- The slot at the end of the frame is the one that was reserved last, and is given back. -/
theorem Tight.release {l : Ledger} (h : l.Tight) (hbehind : l.NothingBehind) {n : Nat}
    {rest : List Nat} (hreserved : l.reserved = n :: rest) :
    Tight ⟨{ l.frame with size := l.frame.size - 1, staged := l.frame.staged - 1 }, rest⟩ := by
  have hn : l.frame.size = n + 1 := (h.head_eq hbehind hreserved).symm
  obtain ⟨hperm, horder⟩ := h
  rw [hreserved] at horder
  refine ⟨?_, horder.of_cons⟩
  show (_ ++ rest).Perm (List.range (l.frame.size - 1))
  rw [held, hreserved, hn, List.range_succ] at hperm
  rw [hn, Nat.add_sub_cancel]
  exact (List.perm_middle.symm.trans (hperm.trans (List.perm_append_singleton _ _))).cons_inv

/-- A request keeps the slots together, a release if nothing is behind the slot it gives back. -/
theorem Tight.step {l : Ledger} (h : l.Tight) (hcounted : l.Counted) {r : Request}
    (hrelease : r = .release → l.NothingBehind) : (l.step r).Tight := by
  rcases l.step_cases r with ⟨t, v, frame, -, hdeclare, hstep⟩ | ⟨-, hstep⟩ | ⟨hr, hstaged, hstep⟩ |
    hstep
  · rw [hstep]
    exact h.declare hdeclare
  · rw [hstep]
    exact h.stage
  · rw [hstep]
    obtain ⟨n, rest, hreserved⟩ := hcounted.exists_reserved hstaged
    rw [hreserved]
    exact h.release (hrelease hr) hreserved
  · rw [hstep]
    exact h

theorem mem_release {f : Frame} {n : Nat} :
    n ∈ f.release.map Prod.fst ↔ f.staged ≠ 0 ∧ f.size - 1 = n := by
  unfold Frame.release
  split_ifs with h <;> simp [h]

theorem Tight.releasesLast {l : Ledger} (h : l.Tight) (hcounted : l.Counted)
    (hbehind : l.NothingBehind) : l.ReleasesLast := by
  intro n hn
  obtain ⟨hstaged, rfl⟩ := mem_release.mp hn
  obtain ⟨m, rest, hreserved⟩ := hcounted.exists_reserved hstaged
  rw [← h.head_eq hbehind hreserved, hreserved]
  rfl

/-- Where a release gives back the last reserved slot, that is the end of the frame, and no variable
can be behind it. -/
theorem Apart.nothingBehind {l : Ledger} (h : l.Apart) (hcounted : l.Counted)
    (hlast : l.ReleasesLast) : l.NothingBehind := by
  intro n hn v hv
  have hreserved : n ∈ l.reserved := List.mem_of_mem_head? hn
  have hstaged : l.frame.staged ≠ 0 := by
    rw [← hcounted.count]
    exact (List.length_pos_of_mem hreserved).ne'
  have hend : l.reserved.head? = some (l.frame.size - 1) := hlast _ (mem_release.mpr ⟨hstaged, rfl⟩)
  have hn' : l.frame.size - 1 = n := Option.some.inj (hend.symm.trans hn)
  have hfirst : v.shift ∈ v.slots := by
    have hpositive := hcounted.positive v hv
    rw [Variable.mem_slots]
    omega
  have hinside : v.shift < l.frame.size :=
    h.inside _ (List.mem_append_left _ (List.mem_flatMap.mpr ⟨v, hv, hfirst⟩))
  have hne : v.shift ≠ n := h.not_reserved hv hfirst hreserved
  omega

end Ledger

/-- Over the requests no slot is given out twice: at each time the slots held are apart, and each
release gives back the slot that was reserved last. -/
structure NeverTwice (base : Register) (requests : List Request) : Prop where
  apart : ∀ before, before <+: requests → (Ledger.run base before).Apart
  last : ∀ before, before ++ [.release] <+: requests → (Ledger.run base before).ReleasesLast

/-- Each release comes before another variable is declared behind the slot it is for. -/
def ReleasedInTime (base : Register) (requests : List Request) : Prop :=
  ∀ before, before ++ [.release] <+: requests → (Ledger.run base before).NothingBehind

theorem ReleasedInTime.tight {base : Register} {requests : List Request}
    (h : ReleasedInTime base requests) {before : List Request} (hbefore : before <+: requests) :
    (Ledger.run base before).Tight := by
  induction before using List.reverseRecOn with
  | nil => exact ⟨List.Perm.refl _, List.Pairwise.nil⟩
  | append_singleton before r ih =>
    have hearlier : (Ledger.run base before).Tight := ih ((List.prefix_append _ _).trans hbefore)
    rw [Ledger.run_concat]
    apply hearlier.step (Ledger.counted_run base before)
    rintro rfl
    exact h before hbefore

/-- Requests in any order, those that fail among them, never make a frame give out a slot twice,
exactly if each reserved slot is released before a variable is declared behind it. -/
theorem slots_never_given_twice_iff (base : Register) (requests : List Request) :
    NeverTwice base requests ↔ ReleasedInTime base requests := by
  constructor
  · intro h before hbefore
    have hearlier : before <+: requests := (List.prefix_append _ _).trans hbefore
    exact (h.apart before hearlier).nothingBehind (Ledger.counted_run base before)
      (h.last before hbefore)
  · intro h
    constructor
    · intro before hbefore
      exact (h.tight hbefore).apart
    · intro before hbefore
      have hearlier : before <+: requests := (List.prefix_append _ _).trans hbefore
      exact (h.tight hearlier).releasesLast (Ledger.counted_run base before) (h before hbefore)

/-- With the slot 0 reserved and `x` declared behind it, a release gives back the slot 1 of `x`, and
the frame ends before it. -/
theorem release_gives_back_variable :
    let x : Term := .node 0 (.ident "x") .absent .absent
    let before := Ledger.run .bx [.stage, .declare x]
    let after := Ledger.run .bx [.stage, .declare x, .release]
    before.reserved = [0] ∧ before.frame.release.map Prod.fst = some 1 ∧
      after.held = [1] ∧ after.frame.size = 1 ∧
      ¬ NeverTwice .bx [.stage, .declare x, .release] := by
  intro x before after
  refine ⟨rfl, rfl, rfl, rfl, ?_⟩
  intro h
  have hinside := (h.apart _ List.prefix_rfl).inside 1 (by decide)
  exact absurd hinside (by decide)

end Frame

end StackCompiler
