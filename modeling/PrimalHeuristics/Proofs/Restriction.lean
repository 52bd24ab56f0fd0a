import PrimalHeuristics.Proofs.Points

/-!
# Restriction is an exact reformulation

A sub-problem and its problem have different columns and rows: free columns are renumbered by their
rank, and only rows with a free column are kept. This module relates the two.

* `SubProblem.IsExpansion`: a vector of the problem that consists of the fixed values and of a
  vector of the sub-problem, and `SubProblem.expand_ofFree`: that is what `expand` makes;
* `dot_of_isExpansion`, `objectiveValue_of_isExpansion`: activities and costs split into the fixed
  and the free columns;
* `RowBounds.violation_shiftBounds`: a row is violated by the same amount if what the fixed columns
  contribute moves to its bounds, and `RowBounds.shifts_finite`: for rational activities, whichever
  infinity stands for no bound;
* `SubProblem.restrict_isReformulation`: all of it together.

Costs and activities are split over exact numbers, where a sum does not depend on its order.
-/

namespace PrimalHeuristics

namespace SubProblem

variable {α : Type}

/-! ### Ranks -/

theorem freeColumns_succ (free : Array Bool) (n : Nat) :
    freeColumns free (n + 1) = freeColumns free n ++ if isFree free n then [n] else [] := by
  rw [freeColumns, List.range_succ, List.filter_append]
  cases h : isFree free n <;> simp [freeColumns, h]

theorem mem_freeColumns {free : Array Bool} {n c : Nat} :
    c ∈ freeColumns free n ↔ c < n ∧ isFree free c = true := by
  simp [freeColumns]

theorem pairwise_freeColumns (free : Array Bool) (n : Nat) :
    (freeColumns free n).Pairwise (· < ·) :=
  List.pairwise_lt_range.filter _

/-- A free column stands at the place of its rank. -/
theorem freeColumns_rank {free : Array Bool} {n c : Nat} (hc : c < n)
    (hf : isFree free c = true) : (freeColumns free n)[rank free c]? = some c := by
  induction n with
  | zero => omega
  | succ n ih =>
    rw [freeColumns_succ]
    rcases Nat.lt_succ_iff_lt_or_eq.1 hc with hc | rfl
    · have hlt : rank free c < (freeColumns free n).length := by
        rw [length_freeColumns]
        exact rank_lt_rank hf hc
      rw [List.getElem?_append_left hlt]
      exact ih hc
    · rw [if_pos hf, ← length_freeColumns, List.getElem?_concat_length]

theorem rank_freeColumns {free : Array Bool} {n i c : Nat}
    (h : (freeColumns free n)[i]? = some c) : rank free c = i := by
  obtain ⟨hc, hf⟩ := mem_freeColumns.1 (List.mem_of_getElem? h)
  have hr := freeColumns_rank hc hf
  have hnodup : (freeColumns free n).Nodup := (pairwise_freeColumns free n).imp Nat.ne_of_lt
  obtain ⟨hi, -⟩ := List.getElem?_eq_some_iff.1 h
  exact ((List.getElem?_inj hi hnodup).1 (h.trans hr.symm)).symm

/-! ### Expansion -/

variable [Scalar α]

/-- The vector has the fixed values, and those of a vector of the sub-problem in the free
columns. -/
structure IsExpansion (n : Nat) (free : Array Bool) (values x full : Array α) : Prop where
  size : full.size = n
  fixed : ∀ c < n, isFree free c = false → full.getD c 0 = values.getD c 0
  free : ∀ c < n, isFree free c = true → full.getD c 0 = x.getD (rank free c) 0

/-- The step of `expand` at one column. -/
def place (x : Array α) (full : Array α) (k : SubColumn α × Nat) : Checked (Array α) := do
  let v ← Checked.read x k.2
  if k.1.origin < full.size then return full.setIfInBounds k.1.origin v
  else .error .outOfRange

/-- Columns that are placed one after another: `j` of them are done already. -/
theorem foldlM_place (x : Array α) (l : List (SubColumn α)) (j : Nat) (full : Array α)
    (hin : ∀ k ∈ l, k.origin < full.size) (hx : j + l.length ≤ x.size)
    (hl : l.Pairwise fun k m => k.origin < m.origin) :
    ∃ full', (l.zipIdx j).foldlM (place x) full = .ok full' ∧ full'.size = full.size ∧
      (∀ c, (∀ k ∈ l, k.origin ≠ c) → full'.getD c 0 = full.getD c 0) ∧
      ∀ i k, l[i]? = some k → full'.getD k.origin 0 = x.getD (j + i) 0 := by
  induction l generalizing j full with
  | nil => exact ⟨full, rfl, rfl, fun _ _ => rfl, by simp⟩
  | cons m l ih =>
    have hm : m.origin < full.size := hin m (by simp)
    simp only [List.length_cons] at hx
    obtain ⟨hml, hl⟩ := List.pairwise_cons.1 hl
    have hstep : place x full (m, j) = .ok (full.setIfInBounds m.origin (x.getD j 0)) := by
      rw [place, Checked.read_eq_getD (by omega) 0, Checked.ok_bind, if_pos hm]
      rfl
    obtain ⟨full', hfold, hsize, hother, hplaced⟩ := ih (j + 1)
      (full.setIfInBounds m.origin (x.getD j 0)) (fun k hk => by simpa using hin k (by simp [hk]))
      (by omega) hl
    refine ⟨full', ?_, by simpa using hsize, fun c hc => ?_, fun i k hk => ?_⟩
    · rw [List.zipIdx_cons, List.foldlM_cons, hstep, Checked.ok_bind, hfold]
    · rw [hother c fun k hk => hc k (by simp [hk]), getD_setIfInBounds hm,
        if_neg (hc m (by simp))]
    · cases i with
      | zero =>
        -- later columns have greater origins, so the entry of this one stays
        obtain rfl : m = k := by simpa using hk
        rw [hother _ fun k hk => (hml k hk).ne', getD_setIfInBounds hm, if_pos rfl]
        rfl
      | succ i =>
        rw [hplaced i k (by simpa using hk), show j + 1 + i = j + (i + 1) by omega]

variable {p : Problem α} {values : Array α} {free : Array Bool} {b : Box α} {m : Matrix α}
  {h : freeMatrix? p free = .ok m}

@[simp] theorem numCols_ofFree : (ofFree p values free b m h).numCols = rank free p.numCols := by
  simp [numCols, ofFree, length_freeColumns]

/-- On vectors of the right lengths, `expand` puts a vector into the free columns. -/
theorem expand_ofFree {x : Array α} (hv : values.size = p.numCols)
    (hx : x.size = rank free p.numCols) :
    ∃ full, (ofFree p values free b m h).expand values x = .ok full ∧
      IsExpansion p.numCols free values x full := by
  let column (c : Nat) : SubColumn α :=
    ⟨c, p.cost c, b.lower.getD c 0, b.upper.getD c 0, p.isInteger c⟩
  let l := (freeColumns free p.numCols).map column
  have hmem : ∀ k ∈ l, k.origin < p.numCols ∧ isFree free k.origin = true := fun k hk => by
    obtain ⟨c, hc, rfl⟩ := List.mem_map.1 hk
    exact mem_freeColumns.1 hc
  have hlen : l.length = rank free p.numCols := by simp [l, length_freeColumns]
  obtain ⟨full, hfull, hsize, hfixed, hfree⟩ := foldlM_place x l 0 values
    (fun k hk => hv ▸ (hmem k hk).1) (by omega)
    (List.pairwise_map.2 (pairwise_freeColumns free p.numCols))
  refine ⟨full, hfull, hsize.trans hv, fun c _ hc => hfixed c ?_, fun c hc hf => ?_⟩
  · rintro k hk rfl
    rw [(hmem k hk).2] at hc
    contradiction
  · have hk : l[rank free c]? = some (column c) := by
      simp [l, freeColumns_rank hc hf]
    have := hfree _ _ hk
    rwa [Nat.zero_add] at this

/-- On vectors of the right lengths, only a blocked row can keep `restrict` from a sub-problem. -/
theorem restrict_eq (hv : values.size = p.numCols) (hf : free.size = p.numCols)
    (hb : b.HasSize p.numCols) :
    restrict p values free b =
      .ok (if (List.range p.numRows).any (isBlocked p free values) then none
        else some (ofFree p values free b _ (freeMatrix?_eq p free))) := by
  have hlengths : checkLengths (α := α) p.numCols
      [(.values, values.size), (.freeFlags, free.size), (.lowerBounds, b.lower.size),
        (.upperBounds, b.upper.size)] = .ok () := by
    simp [checkLengths, hv, hf, hb.1, hb.2]
  unfold restrict
  rw [hlengths, Checked.ok_bind]
  split
  · rfl
  · split
    · rename_i e he
      rw [freeMatrix?_eq] at he
      contradiction
    · rename_i m hm
      obtain rfl := Except.ok.inj ((freeMatrix?_eq p free).symm.trans hm)
      rfl

end SubProblem

/-! ### Activities and costs -/

namespace Exact

open SubProblem

/-- A sum over all columns splits into those over the fixed and over the free ones. -/
theorem sum_split {β : Type} (free : β → Bool) (f : β → Exact) (l : List β) :
    (l.map f).sum = ((l.filter fun c => !free c).map f).sum + ((l.filter free).map f).sum := by
  rw [add_comm, ← List.sum_append, ← List.map_append]
  exact ((List.filter_append_perm free l).map f).sum_eq.symm

theorem fixedActivity_eq_sum (free : Array Bool) (values : Array Exact) (l : Line Exact) :
    fixedActivity free values l =
      ((l.filter fun e => !isFree free e.1).map fun e => e.2 * values.getD e.1 0).sum := by
  rw [fixedActivity, List.sum_eq_foldl, List.foldl_map, List.foldl_filter]
  congr 1
  funext s e
  cases isFree free e.1 <;> rfl

theorem dot_freeEntries (free : Array Bool) (x : Array Exact) (l : Line Exact) :
    (freeEntries free l).dot x = ((l.filter fun e => isFree free e.1).map fun e =>
      e.2 * x.getD (rank free e.1) 0).sum := by
  rw [dot_eq_sum, freeEntries]
  congr 1
  induction l with
  | nil => rfl
  | cons e l ih =>
    rw [List.filterMap_cons, List.filter_cons]
    cases isFree free e.1
    · simpa using ih
    · simpa using ih

variable {n : Nat} {free : Array Bool} {values x full : Array Exact}

/-- The activity of a row is what its fixed columns contribute and what its free ones do. -/
theorem dot_of_isExpansion (h : IsExpansion n free values x full) {l : Line Exact}
    (hl : l.Ordered n) : l.dot full = fixedActivity free values l + (freeEntries free l).dot x := by
  rw [dot_eq_sum, sum_split (fun e => isFree free e.1), fixedActivity_eq_sum, dot_freeEntries]
  congr 2
  · refine List.map_congr_left fun e he => ?_
    obtain ⟨he, hf⟩ := List.mem_filter.1 he
    rw [h.fixed e.1 (hl.2 e he) (by simpa using hf)]
  · refine List.map_congr_left fun e he => ?_
    obtain ⟨he, hf⟩ := List.mem_filter.1 he
    rw [h.free e.1 (hl.2 e he) hf]

/-- A row without a free column has the same activity wherever the free ones are put. -/
theorem dot_eq_fixedActivity (hfixed : ∀ c < n, isFree free c = false →
      full.getD c 0 = values.getD c 0) {l : Line Exact} (hl : l.Ordered n)
    (hnone : freeEntries free l = []) : l.dot full = fixedActivity free values l := by
  have hall : ∀ e ∈ l, isFree free e.1 = false := fun e he => by
    simpa using List.filterMap_eq_nil_iff.1 hnone e he
  rw [dot_eq_sum, fixedActivity_eq_sum, List.filter_eq_self.2 fun e he => by simp [hall e he]]
  congr 1
  exact List.map_congr_left fun e he => by rw [hfixed e.1 (hl.2 e he) (hall e he)]

/-- The cost of an expansion is that of the vector of the sub-problem. -/
theorem objectiveValue_of_isExpansion {p : Problem Exact} {b : Box Exact} {m : Matrix Exact}
    {hm : freeMatrix? p free = .ok m} (h : IsExpansion p.numCols free values x full)
    (hx : x.size = rank free p.numCols) :
    p.objectiveValue full = (ofFree p values free b m hm).objectiveValue x := by
  have hsub : (List.range (rank free p.numCols)).map (fun j =>
      (ofFree p values free b m hm).cost j * x.getD j 0) =
      (freeColumns free p.numCols).map fun c => p.cost c * x.getD (rank free c) 0 := by
    refine List.ext_getElem (by simp [length_freeColumns]) fun j hj hj' => ?_
    have hc : j < (freeColumns free p.numCols).length := by simpa using hj'
    have hr := rank_freeColumns (List.getElem?_eq_getElem hc)
    simp [SubProblem.cost, ofFree, hc, hr]
  rw [p.objectiveValue_eq h.size, SubProblem.objectiveValue_eq _ (by simpa using hx),
    numCols_ofFree, hsub, sum_eq, sum_eq, sum_split (isFree free)]
  simp only [ofFree, sum_eq]
  congr 2
  · refine List.map_congr_left fun c hc => ?_
    obtain ⟨hc, hf⟩ := List.mem_filter.1 hc
    rw [h.fixed c (List.mem_range.1 hc) (by simpa using hf)]
  · refine List.map_congr_left fun c hc => ?_
    obtain ⟨hc, hf⟩ := mem_freeColumns.1 hc
    rw [h.free c hc hf]

/-! ### Shifted row bounds -/

section Shift

variable (a : ℚ) (f r : Exact)

theorem lt_sub_iff : r < finite a - f ↔ f + r < finite a := by
  rcases f with f | (_ | _) | _ <;> rcases r with r | (_ | _) | _ <;>
    simp [sub_eq, ← sub_eq_add_neg, lt_sub_iff_add_lt, add_comm]

theorem sub_lt_iff : finite a - f < r ↔ finite a < f + r := by
  rcases f with f | (_ | _) | _ <;> rcases r with r | (_ | _) | _ <;>
    simp [sub_eq, ← sub_eq_add_neg, sub_lt_iff_lt_add, add_comm]

theorem finite_sub_sub : finite a - f - r = finite a - (f + r) := by
  rcases f with f | (_ | _) | _ <;> rcases r with r | (_ | _) | _ <;> simp [sub_eq]
  ring

theorem sub_finite_sub : r - (finite a - f) = f + r - finite a := by
  rcases f with f | (_ | _) | _ <;> rcases r with r | (_ | _) | _ <;> simp [sub_eq]
  ring

end Shift

end Exact

namespace RowBounds

open SubProblem Exact

/-- Each bound is a number that is one, or the infinity of its own side. -/
def IsProper (b : RowBounds Exact) : Prop :=
  (Scalar.isBound b.lower = true ∨ b.lower = .infinite true) ∧
    (Scalar.isBound b.upper = true ∨ b.upper = .infinite false)

/-- What the fixed columns contribute may move from the activity of a row to its bounds. -/
theorem violation_shiftBounds {b : RowBounds Exact} (hb : b.IsProper) (f r : Exact) :
    (shiftBounds b f).violation r = b.violation (f + r) := by
  obtain ⟨lower, upper⟩ := b
  obtain ⟨hlower, hupper⟩ := hb
  have habove : (if shiftBound upper f < r then r - shiftBound upper f else 0) =
      if upper < f + r then f + r - upper else 0 := by
    rcases hupper with hu | rfl
    · obtain ⟨a, rfl, -⟩ := isBound_iff.1 hu
      simp only [shiftBound, hu, if_true, sub_lt_iff, sub_finite_sub]
    · simp [shiftBound]
  show (if r < shiftBound lower f then shiftBound lower f - r
      else if shiftBound upper f < r then r - shiftBound upper f else 0) =
    if f + r < lower then lower - (f + r) else if upper < f + r then f + r - upper else 0
  rw [habove]
  rcases hlower with hl | rfl
  · obtain ⟨a, rfl, -⟩ := isBound_iff.1 hl
    simp only [shiftBound, hl, if_true, lt_sub_iff, finite_sub_sub]
  · simp [shiftBound]

/-- A row is violated by the same amount if what the fixed columns contribute moves to its bounds. -/
def Shifts (b : RowBounds Exact) (f r : Exact) : Prop :=
  (shiftBounds b f).violation r = b.violation (f + r)

/-- Each bound is a number that is one, or an infinity of whichever side. -/
def HasTrueInfinities (b : RowBounds Exact) : Prop :=
  (Scalar.isBound b.lower = true ∨ ∃ s, b.lower = .infinite s) ∧
    (Scalar.isBound b.upper = true ∨ ∃ s, b.upper = .infinite s)

theorem shiftBound_infinite (s : Bool) (f : Exact) :
    shiftBound (.infinite s) f = .infinite s := by
  simp [shiftBound]

/-- Finite activities do not see on which side an infinity stands. -/
theorem shifts_finite {b : RowBounds Exact} (hb : b.HasTrueInfinities) (f r : ℚ) :
    b.Shifts (finite f) (finite r) := by
  obtain ⟨lower, upper⟩ := b
  obtain ⟨hlower, hupper⟩ := hb
  have habove : (if shiftBound upper (finite f) < finite r then
        finite r - shiftBound upper (finite f) else 0) =
      if upper < finite f + finite r then finite f + finite r - upper else 0 := by
    rcases hupper with hu | ⟨s, rfl⟩
    · obtain ⟨a, rfl, -⟩ := isBound_iff.1 hu
      simp only [shiftBound, hu, if_true, sub_lt_iff, sub_finite_sub]
    · rw [shiftBound_infinite]
      cases s <;> simp [sub_eq]
  show (if finite r < shiftBound lower (finite f) then shiftBound lower (finite f) - finite r
      else if shiftBound upper (finite f) < finite r then
        finite r - shiftBound upper (finite f) else 0) =
    if finite f + finite r < lower then lower - (finite f + finite r)
      else if upper < finite f + finite r then finite f + finite r - upper else 0
  rw [habove]
  rcases hlower with hl | ⟨s, rfl⟩
  · obtain ⟨a, rfl, -⟩ := isBound_iff.1 hl
    simp only [shiftBound, hl, if_true, lt_sub_iff, finite_sub_sub]
  · rw [shiftBound_infinite]
    cases s <;> simp

end RowBounds

/-! ### Columns and rows of the sub-problem -/

namespace SubProblem

section Places

variable {α : Type} [Scalar α] {p : Problem α} {values : Array α} {free : Array Bool} {b : Box α}
  {m : Matrix α} {h : freeMatrix? p free = .ok m}

omit [Scalar α] in
theorem freeEntries_eq_nil {l : Line α} :
    freeEntries free l = [] ↔ ∀ e ∈ l, isFree free e.1 = false := by
  simp [freeEntries]

theorem isWithin_ofFree {x : Array α} {c j : Nat}
    (hc : (freeColumns free p.numCols)[j]? = some c) :
    IsWithin ((ofFree p values free b m h).isInteger j) (x.getD j 0)
        ((ofFree p values free b m h).box.lower.getD j 0)
        ((ofFree p values free b m h).box.upper.getD j 0) ↔
      IsWithin (p.isInteger c) (x.getD j 0) (b.lower.getD c 0) (b.upper.getD c 0) := by
  simp [isInteger, box, ofFree, hc]

/-- The columns of an expansion are within their bounds if the free ones are in the sub-problem, and
the fixed ones are. -/
theorem allWithin_of_isExpansion {x full : Array α}
    (hx : IsExpansion p.numCols free values x full) :
    AllWithin p.numCols p.isInteger full b ↔
      AllWithin (rank free p.numCols) (ofFree p values free b m h).isInteger x
          (ofFree p values free b m h).box ∧
        ∀ c < p.numCols, isFree free c = false →
          IsWithin (p.isInteger c) (values.getD c 0) (b.lower.getD c 0) (b.upper.getD c 0) := by
  constructor
  · intro hall
    refine ⟨fun j hj => ?_, fun c hc hf => hx.fixed c hc hf ▸ hall c hc⟩
    rw [← length_freeColumns] at hj
    have hj := List.getElem?_eq_getElem hj
    obtain ⟨hc, hf⟩ := mem_freeColumns.1 (List.mem_of_getElem? hj)
    rw [isWithin_ofFree hj]
    have := hall _ hc
    rwa [hx.free _ hc hf, rank_freeColumns hj] at this
  · rintro ⟨hfree, hfixed⟩ c hc
    cases hf : isFree free c with
    | false => exact hx.fixed c hc hf ▸ hfixed c hc hf
    | true =>
      rw [hx.free c hc hf]
      exact (isWithin_ofFree (freeColumns_rank hc hf)).1 (hfree _ (rank_lt_rank hf hc))

theorem row_ofFree {k r : Nat} (hk : (keptRows p free)[k]? = some r) :
    (ofFree p values free b m h).matrix.row k = freeEntries free (p.matrix.row r) := by
  show m.rows.getD k [] = _
  rw [(rows_of_freeMatrix? h).2]
  simp [freeRows, hk]

theorem boundsOf_ofFree {k r : Nat} (hk : (keptRows p free)[k]? = some r) :
    (ofFree p values free b m h).boundsOf k =
      shiftBounds (p.boundsOf r) (fixedActivity free values (p.matrix.row r)) := by
  simp [boundsOf, ofFree, hk]

theorem keptRows_eq : keptRows p free =
    (List.range p.numRows).filter fun r => (p.matrix.row r).any fun e => isFree free e.1 := by
  refine List.filter_congr fun r _ => ?_
  rw [Bool.eq_iff_iff, Bool.not_eq_true', ← Bool.not_eq_true, List.isEmpty_iff, freeEntries_eq_nil]
  simp

theorem mem_keptRows {r : Nat} :
    r ∈ keptRows p free ↔ r < p.numRows ∧ ∃ e ∈ p.matrix.row r, isFree free e.1 = true := by
  simp [keptRows_eq]

end Places

/-! ### The reformulation -/

variable {p : Problem Exact} {values : Array Exact} {free : Array Bool} {b : Box Exact}

theorem ordered_row (p : Problem Exact) (r : Nat) : (p.matrix.row r).Ordered p.numCols := by
  have := p.matrix.ordered_row r
  rwa [p.numCols_matrix] at this

/-- A kept row is violated by the same amount in the sub-problem. -/
theorem violation_ofFree {m : Matrix Exact} {h : freeMatrix? p free = .ok m}
    {x full : Array Exact} (hx : IsExpansion p.numCols free values x full) {k r : Nat}
    (hk : (keptRows p free)[k]? = some r)
    (hr : (p.boundsOf r).Shifts (fixedActivity free values (p.matrix.row r))
      ((freeEntries free (p.matrix.row r)).dot x)) :
    ((ofFree p values free b m h).boundsOf k).violation
        (((ofFree p values free b m h).matrix.row k).dot x) =
      (p.boundsOf r).violation ((p.matrix.row r).dot full) := by
  rw [row_ofFree hk, boundsOf_ofFree hk, Exact.dot_of_isExpansion hx (ordered_row p r)]
  exact hr

/-- A row without a free column, and violated wherever the free columns are put. -/
theorem isBlocked_iff {full : Array Exact} (hfixed : ∀ c < p.numCols, isFree free c = false →
      full.getD c 0 = values.getD c 0) (r : Nat) :
    isBlocked p free values r = true ↔ freeEntries free (p.matrix.row r) = [] ∧
      Scalar.feasTol < (p.boundsOf r).violation ((p.matrix.row r).dot full) := by
  rw [isBlocked, Bool.and_eq_true, List.isEmpty_iff, decide_eq_true_iff]
  refine and_congr_right fun hnone => ?_
  rw [Exact.dot_eq_fixedActivity hfixed (ordered_row p r) hnone]

/-- If no row is blocked, an expansion keeps all rows if the vector of the sub-problem does. -/
theorem rows_of_isExpansion {m : Matrix Exact} {h : freeMatrix? p free = .ok m}
    {x full : Array Exact}
    (hp : ∀ r < p.numRows, (p.boundsOf r).Shifts (fixedActivity free values (p.matrix.row r))
      ((freeEntries free (p.matrix.row r)).dot x))
    (hopen : ∀ r < p.numRows, isBlocked p free values r = false)
    (hx : IsExpansion p.numCols free values x full) :
    (∀ r < p.numRows,
        ¬ Scalar.feasTol < (p.boundsOf r).violation ((p.matrix.row r).dot full)) ↔
      ∀ k < (ofFree p values free b m h).numRows,
        ((ofFree p values free b m h).boundsOf k).violation
          (((ofFree p values free b m h).matrix.row k).dot x) ≤ Scalar.feasTol := by
  have hnum : (ofFree p values free b m h).numRows = (keptRows p free).length := by
    simp [numRows, ofFree]
  constructor
  · intro hall k hk
    rw [hnum] at hk
    have hk := List.getElem?_eq_getElem hk
    have hr := (mem_keptRows.1 (List.mem_of_getElem? hk)).1
    rw [violation_ofFree hx hk (hp _ hr)]
    exact (RowBounds.not_feasTol_lt_violation _ _).1 (hall _ hr)
  · intro hall r hr
    by_cases hkept : r ∈ keptRows p free
    · obtain ⟨k, hk⟩ := List.getElem?_of_mem hkept
      have hlt := (List.getElem?_eq_some_iff.1 hk).1
      rw [← violation_ofFree (b := b) (h := h) hx hk (hp r hr)]
      exact (RowBounds.not_feasTol_lt_violation _ _).2 (hall k (hnum ▸ hlt))
    · -- the row was checked at once
      have hnone : freeEntries free (p.matrix.row r) = [] := by
        rw [freeEntries_eq_nil]
        simpa [mem_keptRows, hr] using hkept
      intro hviolated
      have hblocked := (isBlocked_iff hx.fixed r).2 ⟨hnone, hviolated⟩
      rw [hopen r hr] at hblocked
      contradiction

/-- An expansion is feasible if the vector of the sub-problem is, and the fixed columns are within
their bounds, unless a row without a free column is violated. -/
theorem isFeasible_of_isExpansion {m : Matrix Exact} {h : freeMatrix? p free = .ok m}
    {x full : Array Exact}
    (hp : ∀ r < p.numRows, (p.boundsOf r).Shifts (fixedActivity free values (p.matrix.row r))
      ((freeEntries free (p.matrix.row r)).dot x))
    (hopen : ∀ r < p.numRows, isBlocked p free values r = false)
    (hx : IsExpansion p.numCols free values x full) :
    p.IsFeasible full b ↔
      (ofFree p values free b m h).IsFeasible x (ofFree p values free b m h).box ∧
        ∀ c < p.numCols, isFree free c = false →
          IsWithin (p.isInteger c) (values.getD c 0) (b.lower.getD c 0) (b.upper.getD c 0) := by
  rw [Problem.IsFeasible, SubProblem.IsFeasible, allWithin_of_isExpansion (h := h) (b := b) hx,
    rows_of_isExpansion (b := b) (h := h) hp hopen hx, numCols_ofFree]
  tauto

/-- Some row without a free column is violated at the given values. -/
def IsViolated (p : Problem Exact) (values : Array Exact) (free : Array Bool) : Prop :=
  ∃ r < p.numRows, (∀ e ∈ p.matrix.row r, isFree free e.1 = false) ∧
    ∃ a, (p.matrix.row r).activity values = .ok a ∧ Scalar.feasTol < (p.boundsOf r).violation a

/-- A vector of the problem that stands for one of the sub-problem: the same cost, the same
violations of the rows that are kept, and the same verdict if the fixed columns are within their
bounds. -/
structure StandsFor (p : Problem Exact) (values : Array Exact) (free : Array Bool) (b : Box Exact)
    (s : SubProblem Exact) (x full : Array Exact) : Prop where
  isExpansion : IsExpansion p.numCols free values x full
  objectiveValue_eq : p.objectiveValue full = s.objectiveValue x
  violation_eq : ∀ k row, s.rows[k]? = some row → ∃ a a', (s.matrix.row k).activity x = .ok a ∧
    (p.matrix.row row.origin).activity full = .ok a' ∧
      (s.boundsOf k).violation a = (p.boundsOf row.origin).violation a'
  isFeasible_iff : p.isFeasible full b.lower b.upper = .ok true ↔
    s.isFeasible x s.box = .ok true ∧ ∀ c < p.numCols, isFree free c = false →
      withinBounds (p.isInteger c) values b.lower b.upper c = .ok true

/-- The answer of a restriction is an exact reformulation: there is none exactly if a row without a
free column is violated, and then no choice of the free columns helps; otherwise the free columns
and the rows that have one are kept in order, and every vector expands to one that it stands for. -/
structure IsReformulation (p : Problem Exact) (values : Array Exact) (free : Array Bool)
    (b : Box Exact) (answer : Option (SubProblem Exact)) : Prop where
  none_iff : answer = none ↔ IsViolated p values free
  of_none : answer = none → ∀ full : Array Exact, full.size = p.numCols →
    (∀ c < p.numCols, isFree free c = false → full.getD c 0 = values.getD c 0) →
      p.isFeasible full b.lower b.upper = .ok false
  columns_eq : ∀ s, answer = some s → s.columns.toList.map (·.origin) =
    (List.range p.numCols).filter (isFree free)
  rows_eq : ∀ s, answer = some s → s.rows.toList.map (·.origin) =
    (List.range p.numRows).filter fun r => (p.matrix.row r).any fun e => isFree free e.1
  expand : ∀ s, answer = some s → ∀ x : Array Exact, x.size = s.numCols →
    ∃ full, s.expand values x = .ok full ∧ StandsFor p values free b s x full

theorem isViolated_iff (hv : values.size = p.numCols) :
    IsViolated p values free ↔ (List.range p.numRows).any (isBlocked p free values) = true := by
  simp only [IsViolated, List.any_eq_true, List.mem_range]
  refine exists_congr fun r => and_congr_right fun _ => ?_
  rw [isBlocked_iff (fun _ _ _ => rfl) r, freeEntries_eq_nil,
    Line.activity_eq fun e he => hv ▸ (ordered_row p r).2 e he]
  simp

theorem standsFor_ofFree (hv : values.size = p.numCols) (hb : b.HasSize p.numCols)
    (hp : ∀ r < p.numRows, (p.boundsOf r).IsProper)
    (hopen : ∀ r < p.numRows, isBlocked p free values r = false) {m : Matrix Exact}
    {h : freeMatrix? p free = .ok m} {x full : Array Exact} (hx : x.size = rank free p.numCols)
    (hfull : IsExpansion p.numCols free values x full) :
    StandsFor p values free b (ofFree p values free b m h) x full where
  isExpansion := hfull
  objectiveValue_eq := Exact.objectiveValue_of_isExpansion hfull hx
  violation_eq k row hrow := by
    have hk : (keptRows p free)[k]? = some row.origin := by
      simp only [ofFree, List.getElem?_toArray, List.getElem?_map, Option.map_eq_some_iff] at hrow
      obtain ⟨r, hr, rfl⟩ := hrow
      exact hr
    have hr := (mem_keptRows.1 (List.mem_of_getElem? hk)).1
    refine ⟨_, _, Line.activity_eq fun e he => ?_, Line.activity_eq fun e he => ?_,
      violation_ofFree hfull hk (RowBounds.violation_shiftBounds (hp _ hr) _ _)⟩
    · rw [hx, ← (rows_of_freeMatrix? h).1]
      exact Matrix.lt_of_mem_row he
    · rw [hfull.size]
      exact (ordered_row p _).2 e he
  isFeasible_iff := by
    have hwithin : (∀ c < p.numCols, isFree free c = false →
        withinBounds (p.isInteger c) values b.lower b.upper c = .ok true) ↔
        ∀ c < p.numCols, isFree free c = false →
          IsWithin (p.isInteger c) (values.getD c 0) (b.lower.getD c 0) (b.upper.getD c 0) := by
      refine forall₃_congr fun c hc _ => ?_
      rw [withinBounds_eq (hv ▸ hc) (hb.1 ▸ hc) (hb.2 ▸ hc)]
      simp
    rw [Problem.isFeasible_eq hfull.size hb, SubProblem.isFeasible_eq (by simpa using hx)
      (hasSize_box _), hwithin]
    have hshifts : ∀ r < p.numRows,
        (p.boundsOf r).Shifts (fixedActivity free values (p.matrix.row r))
          ((freeEntries free (p.matrix.row r)).dot x) :=
      fun r hr => RowBounds.violation_shiftBounds (hp r hr) _ _
    simpa using isFeasible_of_isExpansion hshifts hopen hfull

/-- On vectors of the right lengths `restrict` never fails, and its answer is an exact
reformulation. -/
theorem restrict_isReformulation (hv : values.size = p.numCols) (hf : free.size = p.numCols)
    (hb : b.HasSize p.numCols) (hp : ∀ r < p.numRows, (p.boundsOf r).IsProper) :
    ∃ answer, restrict p values free b = .ok answer ∧ IsReformulation p values free b answer := by
  refine ⟨_, restrict_eq hv hf hb, ?_⟩
  by_cases hblocked : (List.range p.numRows).any (isBlocked p free values) = true
  · -- the blocked row stays violated, for none of its columns is free
    rw [if_pos hblocked]
    refine ⟨by simpa using (isViolated_iff hv).2 hblocked, fun _ full hfull hfixed => ?_,
      nofun, nofun, nofun⟩
    obtain ⟨r, hr, hb'⟩ := List.any_eq_true.1 hblocked
    obtain ⟨-, hviolated⟩ := (isBlocked_iff hfixed r).1 hb'
    rw [Problem.isFeasible_eq hfull hb]
    have : ¬ p.IsFeasible full b := fun h => h.2 r (List.mem_range.1 hr) hviolated
    simp [this]
  · have hopen : ∀ r < p.numRows, isBlocked p free values r = false := by
      simpa using hblocked
    rw [if_neg hblocked]
    refine ⟨by simpa [isViolated_iff hv] using hopen, nofun, ?_, ?_, ?_⟩
    · rintro _ ⟨⟩
      simp [ofFree, freeColumns, Function.comp_def]
    · rintro _ ⟨⟩
      simp [ofFree, keptRows_eq, Function.comp_def]
    · rintro _ ⟨⟩ x hx
      rw [numCols_ofFree] at hx
      obtain ⟨full, hexpand, hfull⟩ := expand_ofFree hv hx
      exact ⟨full, hexpand, standsFor_ofFree hv hb hp hopen hx hfull⟩

/-- Two integer columns, of which the second one is fixed. -/
def twoColumns : Problem Exact where
  columns := #[⟨1, 0, .finite 3, true, 0⟩, ⟨1, 0, .finite 3, true, 0⟩]
  rowBounds := #[⟨.finite 2, Scalar.infinity⟩]
  matrix := .ofEntries 1 2 [⟨0, 0, 1⟩, ⟨0, 1, 1⟩]
  sosSets := []
  numCols_matrix := rfl
  numRows_matrix := by simp

theorem restrict_isReformulation_twoColumns :
    (∀ r < twoColumns.numRows, (twoColumns.boundsOf r).IsProper) ∧
      ∃ answer, restrict twoColumns #[0, 1] #[true, false] ⟨#[0, 0], #[.finite 3, .finite 3]⟩ =
          .ok answer ∧
        IsReformulation twoColumns #[0, 1] #[true, false] ⟨#[0, 0], #[.finite 3, .finite 3]⟩
          answer := by
  have hp : ∀ r < twoColumns.numRows, (twoColumns.boundsOf r).IsProper := by
    intro r hr
    obtain rfl : r = 0 := Nat.lt_one_iff.1 hr
    exact ⟨.inl (Exact.isBound_iff.2 ⟨2, rfl, by norm_num⟩), .inr rfl⟩
  exact ⟨hp, restrict_isReformulation rfl rfl ⟨rfl, rfl⟩ hp⟩

end SubProblem

end PrimalHeuristics
