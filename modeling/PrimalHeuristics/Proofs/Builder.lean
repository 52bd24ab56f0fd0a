import PrimalHeuristics.Problem.Builder
import PrimalHeuristics.Proofs.Entries

/-!
# Problems that are built in steps

A problem is built by steps in any order: columns, priorities, rows and special ordered sets. A step
may only name columns that were added before it; otherwise it is refused, and the builder is as it
was. So all that a builder holds fits together, and building the problem never fails: its columns
and rows are those of the steps that were not refused.

* `Builder.Step`, `Builder.perform`, `Builder.afterAll`: steps, their answers, and what is left;
* `Builder.accepted`, `Builder.columnsOf`, `Builder.rowsOf`: what steps say, read off their list;
* `Problem.Consists`: a problem has the columns and rows of a list of steps;
* `Builder.Holds`, `Builder.holds_afterAll`: the invariant of a builder;
* `Builder.keepsSteps`: what follows for every sequence of steps.
-/

namespace PrimalHeuristics

variable {α : Type} [Scalar α]

/-! ### Rows that name a column more than once -/

/-- What a line gives for a column, which may come several times: the sum of its values in their
order, unless that is zero. -/
def Line.nonzeroSumAt (l : Line α) (c : Nat) : Option α :=
  (Entry.sumInOrder ((l.filter (·.1 == c)).map (·.2))).filter fun v => !(v == 0)

theorem Entry.nonzeroSumAt_entriesOf {lines : List (Line α)} {r : Nat} {l : Line α}
    (h : lines[r]? = some l) (c : Nat) :
    nonzeroSumAt (Matrix.entriesOf lines) r c = l.nonzeroSumAt c := by
  have hplace : (Matrix.entriesOf lines).filter (isAt r c) =
      ((Matrix.entriesOf lines).filter (·.row == r)).filter (·.col == c) := by
    rw [List.filter_filter]
    exact List.filter_congr fun e _ => Bool.and_comm _ _
  rw [nonzeroSumAt, sumAt, hplace, Matrix.filter_entriesOf, h, Option.getD_some, List.filter_map,
    List.map_map]
  rfl

omit [Scalar α] in
/-- One more line, with the next number. -/
theorem Matrix.entriesOf_concat (lines : List (Line α)) (l : Line α) :
    entriesOf (lines ++ [l]) =
      entriesOf lines ++ l.map fun e => ⟨lines.length, e.1, e.2⟩ := by
  simp [entriesOf, List.zipIdx_append]

namespace Builder

/-! ### Steps -/

/-- A step of building a problem. -/
inductive Step (α : Type) where
  | addColumn (objective lower upper : α) (integer : Bool)
  | addBinary (objective : α)
  | setPriority (column : Nat) (priority : Int)
  | addRow (lower upper : α) (entries : Line α)
  | addSos (members : List Nat)

/-- The answer to a step, with the index of a column or row that it adds, and the builder after it.
A step that is refused leaves the builder as it was. -/
def perform (b : Builder α) : Step α → Except (Error α) (Option Nat) × Builder α
  | .addColumn objective lower upper integer =>
    (.ok (some b.columns.size), b.addColumn objective lower upper integer)
  | .addBinary objective => (.ok (some b.columns.size), b.addBinary objective)
  | .setPriority c priority =>
    match b.setPriority c priority with
    | .error e => (.error e, b)
    | .ok b' => (.ok none, b')
  | .addRow lower upper entries =>
    match b.addRow lower upper entries with
    | .error e => (.error e, b)
    | .ok b' => (.ok (some b.rowBounds.size), b')
  | .addSos members => (.ok none, b.addSos members)

/-- The builder after steps, one after another. -/
def afterAll (b : Builder α) (steps : List (Step α)) : Builder α :=
  steps.foldl (fun b s => (b.perform s).2) b

/-! ### What steps say -/

namespace Step

/-- The columns that a step names; the members of special ordered sets are not looked at. -/
def named : Step α → List Nat
  | setPriority c _ => [c]
  | addRow _ _ entries => entries.map (·.1)
  | addColumn .. | addBinary _ | addSos _ => []

/-- The column that a step adds, with the standard priority. -/
def column? : Step α → Option (Column α)
  | addColumn objective lower upper integer =>
    some ⟨objective, lower, upper, integer, defaultPriority⟩
  | addBinary objective => some ⟨objective, 0, 1, true, defaultPriority⟩
  | setPriority .. | addRow .. | addSos _ => none

/-- The priority that a step sets for a column. -/
def priority? (j : Nat) : Step α → Option Int
  | setPriority c priority => if c = j then some priority else none
  | addColumn .. | addBinary _ | addRow .. | addSos _ => none

/-- The row that a step adds: its bounds, and the entries that are given for it. -/
def row? : Step α → Option (RowBounds α × Line α)
  | addRow lower upper entries => some (⟨lower, upper⟩, entries)
  | addColumn .. | addBinary _ | setPriority .. | addSos _ => none

/-- The special ordered set that a step adds. -/
def sosSet? : Step α → Option (List Nat)
  | addSos members => some members
  | addColumn .. | addBinary _ | setPriority .. | addRow .. => none

/-- The step names only the first `n` columns. -/
def Fits (s : Step α) (n : Nat) : Prop :=
  ∀ c ∈ s.named, c < n

instance (s : Step α) (n : Nat) : Decidable (s.Fits n) :=
  inferInstanceAs (Decidable (∀ c ∈ s.named, _))

end Step

/-- The priority that was set last for a column, or else the standard one. -/
def priorityOf (l : List (Step α)) (j : Nat) : Int :=
  (l.filterMap (Step.priority? j)).getLast?.getD defaultPriority

/-- The columns that steps add, with the priorities that were set last. -/
def columnsOf (l : List (Step α)) : List (Column α) :=
  (l.filterMap Step.column?).mapIdx fun j k => { k with priority := priorityOf l j }

/-- The rows that steps add. -/
def rowsOf (l : List (Step α)) : List (RowBounds α × Line α) :=
  l.filterMap Step.row?

/-- The special ordered sets that steps add. -/
def sosSetsOf (l : List (Step α)) : List (List Nat) :=
  l.filterMap Step.sosSet?

/-- The index of the column or row that a step adds after other steps. -/
def Step.index? (l : List (Step α)) : Step α → Option Nat
  | addColumn .. | addBinary _ => some (columnsOf l).length
  | addRow .. => some (rowsOf l).length
  | setPriority .. | addSos _ => none

/-- The steps that are not refused: those that name only columns that were added before them. -/
def accepted (steps : List (Step α)) : List (Step α) :=
  steps.foldl (fun l s => if s.Fits (columnsOf l).length then l ++ [s] else l) []

variable {b : Builder α} {l : List (Step α)} {s : Step α}

theorem accepted_concat (steps : List (Step α)) (s : Step α) : accepted (steps ++ [s]) =
    if s.Fits (columnsOf (accepted steps)).length then accepted steps ++ [s]
    else accepted steps := by
  rw [accepted, List.foldl_append]
  rfl

omit [Scalar α] in
theorem priorityOf_concat (l : List (Step α)) (s : Step α) (j : Nat) :
    priorityOf (l ++ [s]) j = (s.priority? j).getD (priorityOf l j) := by
  unfold priorityOf
  rw [List.filterMap_append, List.filterMap_cons, List.filterMap_nil]
  cases s.priority? j <;> simp

omit [Scalar α] in
/-- A column that no step names has the standard priority. -/
theorem priorityOf_of_not_mem {j : Nat} (h : ∀ s ∈ l, j ∉ s.named) :
    priorityOf l j = defaultPriority := by
  have hnone : l.filterMap (Step.priority? j) = [] := by
    refine List.filterMap_eq_nil_iff.2 fun s hs => ?_
    have hj := h s hs
    cases s with
    | setPriority c priority => exact if_neg fun hc => hj (by simp [Step.named, hc])
    | addColumn | addBinary | addRow | addSos => rfl
  rw [priorityOf, hnone]
  rfl

theorem length_columnsOf (l : List (Step α)) :
    (columnsOf l).length = (l.filterMap Step.column?).length :=
  List.length_mapIdx

/-- A column that is added comes last. -/
theorem columnsOf_concat_of_column (hl : ∀ s ∈ l, s.Fits (columnsOf l).length) {k : Column α}
    (hs : s.column? = some k) (hk : k.priority = defaultPriority) :
    columnsOf (l ++ [s]) = columnsOf l ++ [k] := by
  have hpriority : ∀ j, s.priority? j = none := fun j => by
    cases s <;> first | rfl | cases hs
  -- no step before it names the new column
  have hnew : priorityOf l (l.filterMap Step.column?).length = k.priority := by
    rw [hk]
    refine priorityOf_of_not_mem fun s hs hmem => ?_
    have hlt := hl s hs _ hmem
    rw [length_columnsOf] at hlt
    exact lt_irrefl _ hlt
  rw [columnsOf, List.filterMap_append, List.filterMap_cons, List.filterMap_nil, hs,
    List.mapIdx_append]
  simp [columnsOf, priorityOf_concat, hpriority, hnew]

/-- A step that neither adds a column nor sets a priority leaves the columns. -/
theorem columnsOf_concat_of_none (hs : s.column? = none) (hpriority : ∀ j, s.priority? j = none) :
    columnsOf (l ++ [s]) = columnsOf l := by
  rw [columnsOf, List.filterMap_append, List.filterMap_cons, List.filterMap_nil, hs]
  simp [columnsOf, priorityOf_concat, hpriority]

omit [Scalar α] in
theorem rowsOf_concat_of_none (hs : s.row? = none) : rowsOf (l ++ [s]) = rowsOf l := by
  simp [rowsOf, hs]

omit [Scalar α] in
theorem sosSetsOf_concat_of_none (hs : s.sosSet? = none) :
    sosSetsOf (l ++ [s]) = sosSetsOf l := by
  simp [sosSetsOf, hs]

theorem columnsOf_concat_setPriority (l : List (Step α)) (c : Nat) (priority : Int) :
    columnsOf (l ++ [.setPriority c priority]) =
      (columnsOf l).modify c fun k => { k with priority } := by
  refine List.ext_getElem? fun j => ?_
  have hcolumns : (l ++ [Step.setPriority c priority]).filterMap Step.column? =
      l.filterMap Step.column? := by
    simp [List.filterMap_cons, Step.column?]
  rw [columnsOf, hcolumns, List.getElem?_modify, columnsOf, List.getElem?_mapIdx,
    List.getElem?_mapIdx, priorityOf_concat, Step.priority?]
  cases (l.filterMap Step.column?)[j]? with
  | none => rfl
  | some k => by_cases hc : c = j <;> simp [hc]

/-! ### What a builder holds -/

/-- The builder holds what steps say, all of which name only columns that are there. -/
structure Holds (b : Builder α) (l : List (Step α)) : Prop where
  columns : b.columns.toList = columnsOf l
  rowBounds : b.rowBounds.toList = (rowsOf l).map (·.1)
  entries : b.entries.toList = Matrix.entriesOf ((rowsOf l).map (·.2))
  sosSets : b.sosSets.toList = sosSetsOf l
  fits : ∀ s ∈ l, s.Fits (columnsOf l).length

theorem Holds.size_columns (h : b.Holds l) : b.columns.size = (columnsOf l).length := by
  rw [← h.columns, Array.length_toList]

theorem Holds.size_rowBounds (h : b.Holds l) : b.rowBounds.size = (rowsOf l).length := by
  rw [← Array.length_toList, h.rowBounds, List.length_map]

omit [Scalar α] in
theorem Step.Fits.mono {n m : Nat} (h : s.Fits n) (hnm : n ≤ m) : s.Fits m :=
  fun c hc => (h c hc).trans_le hnm

/-- One more step fits, and all steps before it still do. -/
theorem Holds.fits_concat (h : b.Holds l) (hs : s.Fits (columnsOf l).length) :
    ∀ t ∈ l ++ [s], t.Fits (columnsOf (l ++ [s])).length := by
  have hle : (columnsOf l).length ≤ (columnsOf (l ++ [s])).length := by
    rw [length_columnsOf, length_columnsOf, List.filterMap_append, List.length_append]
    exact Nat.le_add_right _ _
  intro t ht
  rcases List.mem_append.1 ht with ht | ht
  · exact (h.fits t ht).mono hle
  · exact List.mem_singleton.1 ht ▸ hs.mono hle

/-- A step that adds neither a row nor a special ordered set only has to do with the columns. -/
theorem Holds.concat_of_none (h : b.Holds l) (hs : s.Fits (columnsOf l).length)
    (hrow : s.row? = none) (hsos : s.sosSet? = none) {columns : Array (Column α)}
    (hcolumns : columns.toList = columnsOf (l ++ [s])) :
    Builder.Holds { b with columns } (l ++ [s]) where
  columns := hcolumns
  rowBounds := by
    rw [rowsOf_concat_of_none hrow]
    exact h.rowBounds
  entries := by
    rw [rowsOf_concat_of_none hrow]
    exact h.entries
  sosSets := by
    rw [sosSetsOf_concat_of_none hsos]
    exact h.sosSets
  fits := h.fits_concat hs

/-- A step that names only columns that are there is carried out. -/
theorem Holds.perform (h : b.Holds l) (hs : s.Fits (columnsOf l).length) :
    (b.perform s).1 = .ok (s.index? l) ∧ (b.perform s).2.Holds (l ++ [s]) := by
  cases s with
  | addColumn | addBinary =>
    constructor
    · rw [Step.index?, ← h.size_columns]
      rfl
    · apply h.concat_of_none hs rfl rfl
      rw [columnsOf_concat_of_column h.fits rfl rfl, ← h.columns]
      exact Array.toList_push
  | setPriority c priority =>
    have hc : c < b.columns.size := h.size_columns ▸ hs c (List.mem_singleton_self c)
    have hset : b.perform (.setPriority c priority) = (.ok none,
        { b with columns := b.columns.modify c fun k => { k with priority } }) := by
      simp only [Builder.perform, Builder.setPriority, if_pos hc]
    rw [hset]
    refine ⟨rfl, h.concat_of_none hs rfl rfl ?_⟩
    rw [columnsOf_concat_setPriority, ← h.columns]
    exact Array.toList_modify
  | addRow lower upper entries =>
    have hfind : entries.find? (fun e => b.columns.size ≤ e.1) = none := by
      refine List.find?_eq_none.2 fun e he => ?_
      have hc := hs e.1 (List.mem_map_of_mem he)
      rw [← h.size_columns] at hc
      simpa using hc
    have hadd : b.perform (.addRow lower upper entries) = (.ok (some b.rowBounds.size),
        { b with
          rowBounds := b.rowBounds.push ⟨lower, upper⟩
          entries := b.entries ++
            (entries.map fun e => (⟨b.rowBounds.size, e.1, e.2⟩ : Entry α)).toArray }) := by
      simp only [Builder.perform, Builder.addRow, hfind]
    rw [hadd]
    refine ⟨by rw [Step.index?, h.size_rowBounds], ?_, ?_, ?_, ?_, h.fits_concat hs⟩
    · rw [columnsOf_concat_of_none rfl fun _ => rfl]
      exact h.columns
    · simp [rowsOf, Step.row?, h.rowBounds]
    · have hrows : (rowsOf (l ++ [Step.addRow lower upper entries])).map (·.2) =
          (rowsOf l).map (·.2) ++ [entries] := by
        simp [rowsOf, Step.row?]
      rw [hrows, Matrix.entriesOf_concat, List.length_map, ← h.size_rowBounds, ← h.entries]
      exact Array.toList_append
    · rw [sosSetsOf_concat_of_none rfl]
      exact h.sosSets
  | addSos members =>
    refine ⟨rfl, ?_, ?_, ?_, ?_, h.fits_concat hs⟩
    · rw [columnsOf_concat_of_none rfl fun _ => rfl]
      exact h.columns
    · rw [rowsOf_concat_of_none rfl]
      exact h.rowBounds
    · rw [rowsOf_concat_of_none rfl]
      exact h.entries
    · simp [Builder.perform, addSos, sosSetsOf, Step.sosSet?, h.sosSets]

/-- A step that names a column that is not there is refused. -/
theorem Holds.perform_eq_error (h : b.Holds l) (hs : ¬ s.Fits (columnsOf l).length) :
    ∃ r, ∃ c ∈ s.named, (columnsOf l).length ≤ c ∧
      b.perform s = (.error (.entryOutOfRange r c), b) := by
  obtain ⟨c, hc, hlt⟩ : ∃ c ∈ s.named, (columnsOf l).length ≤ c := by
    simpa [Step.Fits] using hs
  cases s with
  | setPriority d priority =>
    obtain rfl := List.mem_singleton.1 hc
    refine ⟨0, c, hc, hlt, ?_⟩
    simp only [Builder.perform, Builder.setPriority, h.size_columns, if_neg hlt.not_gt]
  | addRow lower upper entries =>
    obtain ⟨e, he, rfl⟩ := List.mem_map.1 hc
    cases hfind : entries.find? fun e => b.columns.size ≤ e.1 with
    | none =>
      rw [← h.size_columns] at hlt
      exact absurd (decide_eq_true hlt) (List.find?_eq_none.1 hfind e he)
    | some d =>
      refine ⟨b.rowBounds.size, d.1, List.mem_map_of_mem (List.mem_of_find?_eq_some hfind), ?_, ?_⟩
      · rw [← h.size_columns]
        simpa using List.find?_some hfind
      · simp only [Builder.perform, Builder.addRow, hfind]
  | addColumn | addBinary | addSos => cases hc

/-- After any steps, a builder holds what those say that were not refused. -/
theorem holds_afterAll (steps : List (Step α)) :
    (afterAll {} steps).Holds (accepted steps) := by
  induction steps using List.reverseRecOn with
  | nil => exact ⟨rfl, rfl, rfl, rfl, nofun⟩
  | append_singleton steps s ih =>
    have hafter : afterAll {} (steps ++ [s]) = ((afterAll {} steps).perform s).2 := by
      rw [afterAll, List.foldl_append]
      rfl
    rw [hafter, accepted_concat]
    split
    · rename_i hs
      exact (ih.perform hs).2
    · rename_i hs
      obtain ⟨r, c, -, -, hsame⟩ := ih.perform_eq_error hs
      rw [hsame]
      exact ih

end Builder

/-! ### The problem -/

/-- The problem has the columns, rows and special ordered sets of steps. A row has an entry for each
column for which the step gives values that do not add up to zero, in the order of the columns. -/
structure Problem.Consists (p : Problem α) (l : List (Builder.Step α)) : Prop where
  columns : p.columns.toList = Builder.columnsOf l
  rowBounds : p.rowBounds.toList = (Builder.rowsOf l).map (·.1)
  increasing_row : ∀ k, (p.matrix.row k).Increasing
  mem_row : ∀ (k : Nat) (row : RowBounds α × Line α), (Builder.rowsOf l)[k]? = some row →
    ∀ c v, (c, v) ∈ p.matrix.row k ↔ row.2.nonzeroSumAt c = some v
  sosSets : p.sosSets = Builder.sosSetsOf l

namespace Builder

variable {b : Builder α} {l : List (Step α)}

/-- All entries are for rows and columns that are there. -/
theorem Holds.isInside (h : b.Holds l) :
    ∀ e ∈ b.entries.toList, e.IsInside b.rowBounds.size b.columns.size := by
  intro e he
  rw [h.entries] at he
  obtain ⟨hrow, line, hline, hcol⟩ := Matrix.mem_entriesOf he
  obtain ⟨row, hrow', rfl⟩ := List.mem_map.1 hline
  obtain ⟨s, hs, hsrow⟩ := List.mem_filterMap.1 hrow'
  refine ⟨by simpa [h.size_rowBounds] using hrow, ?_⟩
  rw [h.size_columns]
  refine h.fits s hs e.col ?_
  cases s with
  | addRow lower upper entries =>
    obtain rfl := Option.some.inj hsrow
    exact List.mem_map.2 ⟨_, hcol, rfl⟩
  | addColumn | addBinary | setPriority | addSos => cases hsrow

/-- If all entries are inside, there is a problem, with the matrix of their sums. -/
theorem exists_build_eq (hin : ∀ e ∈ b.entries.toList, e.IsInside b.rowBounds.size b.columns.size) :
    ∃ p, b.build = .ok p ∧ p.columns = b.columns ∧ p.rowBounds = b.rowBounds ∧
      p.sosSets = b.sosSets.toList ∧
      p.matrix.IsMadeOf b.rowBounds.size b.columns.size b.entries.toList := by
  have hmade := Matrix.isMadeOf_ofEntries hin
  have hmatrix : Matrix.ofEntries? b.rowBounds.size b.columns.size b.entries.toList =
      .ok (.ofEntries b.rowBounds.size b.columns.size b.entries.toList) := by
    rw [Matrix.ofEntries?, List.find?_eq_none.2 fun e he => ?_]
    have := hin e he
    simpa [Entry.IsInside] using this
  unfold build
  split
  · rename_i e he
    rw [hmatrix] at he
    cases he
  · rename_i m hm
    rw [hmatrix] at hm
    cases hm
    exact ⟨_, rfl, rfl, rfl, rfl, hmade⟩

/-- What a builder holds makes a problem. -/
theorem Holds.exists_build_eq (h : b.Holds l) : ∃ p, b.build = .ok p ∧ p.Consists l := by
  obtain ⟨p, hp, hcolumns, hrowBounds, hsosSets, hmade⟩ := Builder.exists_build_eq h.isInside
  refine ⟨p, hp, hcolumns ▸ h.columns, hrowBounds ▸ h.rowBounds, hmade.increasing_row,
    fun k row hrow c v => ?_, hsosSets.trans h.sosSets⟩
  have hline : ((rowsOf l).map (·.2))[k]? = some row.2 := by
    rw [List.getElem?_map, hrow, Option.map_some]
  rw [hmade.mem_row, h.entries, Entry.nonzeroSumAt_entriesOf hline]

/-- What becomes of steps: after them, a step is refused exactly if it names a column that is not
there, and then nothing changes; and the problem can be built, from those that were not refused. -/
structure Keeps (steps : List (Step α)) : Prop where
  carriedOut : ∀ s : Step α, s.Fits (columnsOf (accepted steps)).length →
    ((afterAll {} steps).perform s).1 = .ok (s.index? (accepted steps))
  refused : ∀ s : Step α, ¬ s.Fits (columnsOf (accepted steps)).length →
    ∃ r, ∃ c ∈ s.named, (columnsOf (accepted steps)).length ≤ c ∧
      (afterAll {} steps).perform s = (.error (.entryOutOfRange r c), afterAll {} steps)
  built : ∃ p, (afterAll {} steps).build = .ok p ∧ p.Consists (accepted steps)

/-- Every sequence of steps makes a problem of those that are not refused. -/
theorem keepsSteps (steps : List (Step α)) : Keeps steps where
  carriedOut _ hs := ((holds_afterAll steps).perform hs).1
  refused _ hs := (holds_afterAll steps).perform_eq_error hs
  built := (holds_afterAll steps).exists_build_eq

end Builder

end PrimalHeuristics
