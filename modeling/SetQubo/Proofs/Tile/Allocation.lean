import Mathlib
import SetQubo.Tile
/-!
# Slots and couplings of a tile

The slots of a tile come from a counter, which three loops take from in turn. What a loop takes is
the run of numbers from where the counter stood to where it leaves it, so a tile of any size has the
numbers below its slot count for slots, and each of them at one place. The slot count is computed
from the size alone, and the couplings from the slot count; both agree with what the counter handed
out.

All of this is said of natural numbers. The counter ends at the slot count, so no larger number
comes up on the way: in machine words nothing overflows either, if the slot count fits in one.
-/

namespace SetQubo

namespace Tile

/-! ## The loops -/

theorem run_takeEnds_succ (lines next : Nat) :
    (takeEnds (lines + 1)).run next =
      let rest := (takeEnds lines).run (next + 2)
      ((next :: rest.1.1, (next + 1) :: rest.1.2), rest.2) := rfl

theorem run_takeSlots_succ (count next : Nat) :
    (takeSlots (count + 1)).run next =
      let rest := (takeSlots count).run (next + 1)
      (next :: rest.1, rest.2) := rfl

/-- The slots at both ends of lines, line by line. -/
def lineByLine (firsts seconds : List Nat) : List Nat :=
  (firsts.zip seconds).flatMap fun (a, b) => [a, b]

/-- Line by line stand the same slots as end by end. -/
theorem perm_lineByLine {firsts seconds : List Nat} (h : firsts.length = seconds.length) :
    (firsts ++ seconds).Perm (lineByLine firsts seconds) := by
  induction firsts generalizing seconds with
  | nil =>
    obtain rfl := List.length_eq_zero_iff.mp h.symm
    exact .nil
  | cons a firsts ih =>
    cases seconds with
    | nil => cases h
    | cons b seconds =>
      have hrest := ih (Nat.succ.inj h)
      -- The slot at the second end of the first line moves to the front.
      exact (List.perm_middle.trans (hrest.cons b)).cons a

/-- What lines have taken when the counter has gone from one number to another. -/
structure TakenEnds (lines next : Nat) (ends : List Nat × List Nat) : Prop where
  /-- Each line has a slot at its first end. -/
  length_firsts : ends.1.length = lines
  /-- Each line has a slot at its second end. -/
  length_seconds : ends.2.length = lines
  /-- Line by line, the slots are those from where the counter stood. -/
  lineByLine_eq : lineByLine ends.1 ends.2 = List.range' next (2 * lines)

/-- **Lines take two slots each**, without a gap. -/
theorem run_takeEnds (lines next : Nat) :
    ∃ ends, (takeEnds lines).run next = (ends, next + 2 * lines) ∧ TakenEnds lines next ends := by
  induction lines generalizing next with
  | zero => exact ⟨([], []), rfl, rfl, rfl, rfl⟩
  | succ lines ih =>
    obtain ⟨ends, hrun, hends⟩ := ih (next + 2)
    have hcount : next + 2 + 2 * lines = next + 2 * (lines + 1) := by omega
    refine ⟨(next :: ends.1, (next + 1) :: ends.2), ?_, ?_⟩
    · rw [run_takeEnds_succ, hrun, hcount]
    · constructor
      · rw [List.length_cons, hends.length_firsts]
      · rw [List.length_cons, hends.length_seconds]
      · show next :: (next + 1) :: lineByLine ends.1 ends.2 = _
        rw [hends.lineByLine_eq]
        rfl

/-- **Internal slots are taken one by one**, without a gap. -/
theorem run_takeSlots (count next : Nat) :
    (takeSlots count).run next = (List.range' next count, next + count) := by
  induction count generalizing next with
  | zero => rfl
  | succ count ih =>
    rw [run_takeSlots_succ, ih, List.range'_succ, Nat.add_right_comm]
    rfl

/-! ## The slots of a tile -/

/-- What the counter has handed out for a tile, and where it stands then. -/
structure Allocated (width height internalCount next : Nat) (t : Tile) : Prop where
  /-- The tile has the size that it was made for. -/
  size_eq : t.width = width ∧ t.height = height ∧ t.internalCount = internalCount
  /-- Both slots of each row come first. -/
  rows : TakenEnds width 0 (t.left, t.right)
  /-- Then come both slots of each column, -/
  columns : TakenEnds height (2 * width) (t.top, t.bottom)
  /-- and the internal slots at last. -/
  internal_eq : t.internal = List.range' (2 * width + 2 * height) internalCount
  /-- The slot count is computed from the size, and is where the counter stands. -/
  slotCount_eq : t.slotCount = 2 * width + 2 * height + internalCount ∧ next = t.slotCount
  /-- The couplings are computed from the slot count. -/
  couplings_eq : t.couplings = pairsBelow t.slotCount

theorem run_allocate (width height internalCount next : Nat) :
    (allocate width height internalCount).run next =
      let rows := (takeEnds width).run next
      let columns := (takeEnds height).run rows.2
      let internal := (takeSlots internalCount).run columns.2
      let slotCount := 2 * width + 2 * height + internalCount
      (⟨width, height, internalCount, rows.1.1, rows.1.2, columns.1.1, columns.1.2, internal.1,
        slotCount, pairsBelow slotCount⟩, internal.2) := rfl

theorem new_eq (width height internalCount : Nat) :
    new width height internalCount = ((allocate width height internalCount).run 0).1 := rfl

theorem allocated_allocate (width height internalCount : Nat) :
    Allocated width height internalCount ((allocate width height internalCount).run 0).2
      (new width height internalCount) := by
  -- Each loop starts where the one before has left the counter.
  obtain ⟨rows, hrunRows, hrows⟩ := run_takeEnds width 0
  obtain ⟨columns, hrunColumns, hcolumns⟩ := run_takeEnds height (0 + 2 * width)
  simp only [new_eq, run_allocate, hrunRows, hrunColumns, run_takeSlots]
  rw [Nat.zero_add] at hcolumns ⊢
  constructor
  case size_eq => exact ⟨rfl, rfl, rfl⟩
  case rows => exact hrows
  case columns => exact hcolumns
  case internal_eq => rfl
  case slotCount_eq => exact ⟨rfl, rfl⟩
  case couplings_eq => rfl

theorem boundary_eq (t : Tile) :
    t.boundary = lineByLine t.left t.right ++ lineByLine t.top t.bottom :=
  List.flatMap_append

section allocated
variable {width height internalCount next : Nat} {t : Tile}
  (h : Allocated width height internalCount next t)
include h

/-- **The boundary and then the internal slots** are the numbers below the slot count, in order. -/
theorem Allocated.boundary_append_internal : t.boundary ++ t.internal = List.range t.slotCount := by
  rw [boundary_eq, h.rows.lineByLine_eq, h.columns.lineByLine_eq, h.internal_eq, h.slotCount_eq.1,
    List.range_eq_range', ← List.range'_append_1, ← List.range'_append_1, Nat.zero_add,
    Nat.zero_add]

/-- Every slot stands at exactly one of the five places, and nothing else does. -/
theorem Allocated.count_eq (slot : Nat) :
    t.left.count slot + t.right.count slot + t.top.count slot + t.bottom.count slot +
      t.internal.count slot = if slot < t.slotCount then 1 else 0 := by
  have hrows := perm_lineByLine (h.rows.length_firsts.trans h.rows.length_seconds.symm)
  have hcolumns := perm_lineByLine (h.columns.length_firsts.trans h.columns.length_seconds.symm)
  have hperm : (t.left ++ t.right ++ (t.top ++ t.bottom) ++ t.internal).Perm
      (List.range t.slotCount) := by
    rw [← h.boundary_append_internal, boundary_eq]
    exact (hrows.append hcolumns).append_right _
  have hcount := hperm.count_eq slot
  simp only [List.count_append, List.nodup_range.count, List.mem_range] at hcount
  rw [← hcount]
  omega

end allocated

/-! ## Couplings -/

theorem mem_pairsBelow_iff {n a b : Nat} : (a, b) ∈ pairsBelow n ↔ a < b ∧ b < n := by
  simp only [pairsBelow, List.mem_flatMap, List.mem_map, List.mem_range, List.mem_range'_1,
    Prod.mk.injEq]
  constructor
  · rintro ⟨c, hc, d, hd, rfl, rfl⟩
    omega
  · intro h
    exact ⟨a, by omega, b, by omega, rfl, rfl⟩

theorem pairwise_pairsBelow (n : Nat) :
    (pairsBelow n).Pairwise (Prod.Lex (· < ·) (· < ·)) := by
  unfold pairsBelow
  rw [List.pairwise_flatMap]
  constructor
  · -- Pairs with the same first number stand in the order of the second ones.
    intro a _
    rw [List.pairwise_map]
    exact (List.pairwise_lt_range' (s := a + 1)).imp fun hlt => Prod.Lex.right a hlt
  · -- Pairs with different first numbers stand in the order of those.
    apply List.pairwise_lt_range.imp
    intro a b hab x hx y hy
    obtain ⟨c, -, rfl⟩ := List.mem_map.mp hx
    obtain ⟨d, -, rfl⟩ := List.mem_map.mp hy
    exact Prod.Lex.left c d hab

theorem length_pairsBelow (n : Nat) : (pairsBelow n).length = n * (n - 1) / 2 := by
  have hsum : (pairsBelow n).length = ∑ a ∈ Finset.range n, (n - 1 - a) := by
    unfold pairsBelow
    rw [List.length_flatMap]
    show _ = ((List.range n).map fun a => n - 1 - a).sum
    congr 1
    apply List.map_congr_left
    intro a _
    rw [List.length_map, List.length_range']
    omega
  rw [hsum, Finset.sum_range_reflect (fun a => a) n, Finset.sum_range_id]

theorem isCoupled_iff {t : Tile} {a b : Nat} :
    t.isCoupled a b = true ↔ min a b < max a b ∧ max a b < t.slotCount := by
  simp only [isCoupled, Bool.and_eq_true, decide_eq_true_eq]
  omega

/-! ## The whole tile -/

/-- What there is to know of the slots and couplings of a tile. -/
structure Complete (width height internalCount : Nat) (t : Tile) : Prop where
  /-- The tile has the size that it was made for. -/
  size_eq : t.width = width ∧ t.height = height ∧ t.internalCount = internalCount
  /-- Each row has two slots, each column two, and the internal slots are as many as wanted. -/
  lengths_eq : t.left.length = width ∧ t.right.length = width ∧ t.top.length = height ∧
    t.bottom.length = height ∧ t.internal.length = internalCount
  /-- That is how many slots there are, -/
  slotCount_eq : t.slotCount = 2 * width + 2 * height + internalCount
  /-- and how far the counter has come. -/
  counter_eq : ((allocate width height internalCount).run 0).2 = t.slotCount
  /-- The boundary and then the internal slots are the numbers below the slot count, in order. -/
  in_order : t.boundary ++ t.internal = List.range t.slotCount
  /-- Every slot is at exactly one place, and no other number is at any. -/
  once (slot : Nat) :
    t.left.count slot + t.right.count slot + t.top.count slot + t.bottom.count slot +
      t.internal.count slot = if slot < t.slotCount then 1 else 0
  /-- The couplings strictly ascend, by the first slot and then by the second. -/
  ascending : t.couplings.Pairwise (Prod.Lex (· < ·) (· < ·))
  /-- There is one for every two slots, the smaller of them first. -/
  mem_couplings_iff (a b : Nat) : (a, b) ∈ t.couplings ↔ a < b ∧ b < t.slotCount
  /-- So many are there. -/
  length_couplings : t.couplings.length = t.slotCount * (t.slotCount - 1) / 2
  /-- Two slots are coupled exactly if they have a coupling, whichever is named first. -/
  isCoupled_iff (a b : Nat) : t.isCoupled a b = true ↔ (min a b, max a b) ∈ t.couplings

/-- **Tiles are complete, whatever their size**: the counter, the slot count, the couplings and the
test for a coupling agree. -/
theorem slots_and_couplings (width height internalCount : Nat) :
    Complete width height internalCount (new width height internalCount) := by
  have h := allocated_allocate width height internalCount
  constructor
  case size_eq => exact h.size_eq
  case lengths_eq =>
    refine ⟨h.rows.length_firsts, h.rows.length_seconds, h.columns.length_firsts,
      h.columns.length_seconds, ?_⟩
    rw [h.internal_eq, List.length_range']
  case slotCount_eq => exact h.slotCount_eq.1
  case counter_eq => exact h.slotCount_eq.2
  case in_order => exact h.boundary_append_internal
  case once => exact h.count_eq
  case ascending =>
    rw [h.couplings_eq]
    exact pairwise_pairsBelow _
  case mem_couplings_iff =>
    intro a b
    rw [h.couplings_eq]
    exact mem_pairsBelow_iff
  case length_couplings => rw [h.couplings_eq, length_pairsBelow]
  case isCoupled_iff =>
    intro a b
    rw [h.couplings_eq, mem_pairsBelow_iff]
    exact isCoupled_iff

end Tile

end SetQubo
