import PrimalHeuristics.Error
import PrimalHeuristics.Scalar

/-!
# Sparse matrices

A matrix is kept by rows and by columns. Both are lists of entries that are not zero, with strictly
increasing indices; the columns are read off the rows once, when the matrix is made.

* `Matrix.ofEntries`: entries for the same place are added up in their order, and places whose sum
  is zero are left out;
* `Matrix.ofEntries?`: the same, but an entry outside of the matrix is an error;
* `Matrix.ofEntries?_entriesOf`: the entries of given rows make the matrix of these rows;
* `Matrix.activities`: the product with a vector, row by row.
-/

namespace PrimalHeuristics

/-- The entries of a row or of a column, with their indices. -/
abbrev Line (α : Type) := List (Nat × α)

namespace Line

variable {α : Type}

/-- The indices increase strictly and stay below `n`. -/
def Ordered (n : Nat) (l : Line α) : Prop :=
  l.Pairwise (fun a b => a.1 < b.1) ∧ ∀ a ∈ l, a.1 < n

theorem Ordered.nil {n : Nat} : Ordered n ([] : Line α) := by
  simp [Ordered]

theorem Ordered.filter {n : Nat} {l : Line α} (h : Ordered n l) (p : Nat × α → Bool) :
    Ordered n (l.filter p) :=
  ⟨h.1.filter p, fun a ha => h.2 a (List.mem_filter.1 ha).1⟩

variable [Scalar α]

/-- Adds a value at an index. -/
def add (c : Nat) (v : α) : Line α → Line α
  | [] => [(c, v)]
  | (d, w) :: l =>
    if c < d then (c, v) :: (d, w) :: l
    else if c = d then (d, w + v) :: l
    else (d, w) :: add c v l

theorem index_of_mem_add {c : Nat} {v : α} {l : Line α} {a : Nat × α} (h : a ∈ add c v l) :
    a.1 = c ∨ ∃ b ∈ l, b.1 = a.1 := by
  induction l with
  | nil => simp_all [add]
  | cons e l ih =>
    obtain ⟨d, w⟩ := e
    simp only [add] at h
    split at h
    · rcases List.mem_cons.1 h with rfl | h
      · exact .inl rfl
      · exact .inr ⟨a, h, rfl⟩
    · split at h
      · rcases List.mem_cons.1 h with rfl | h
        · exact .inr ⟨(d, w), by simp, rfl⟩
        · exact .inr ⟨a, by simp [h], rfl⟩
      · rcases List.mem_cons.1 h with rfl | h
        · exact .inr ⟨(d, w), by simp, rfl⟩
        · rcases ih h with h | ⟨b, hb, hba⟩
          · exact .inl h
          · exact .inr ⟨b, by simp [hb], hba⟩

theorem Ordered.add {n c : Nat} {v : α} {l : Line α} (h : Ordered n l) (hc : c < n) :
    Ordered n (add c v l) := by
  refine ⟨?_, fun a ha => ?_⟩
  · have h := h.1
    induction l with
    | nil => simp [Line.add]
    | cons e l ih =>
      obtain ⟨d, w⟩ := e
      obtain ⟨hd, hl⟩ := List.pairwise_cons.1 h
      simp only [Line.add]
      split
      · rename_i hcd
        refine List.pairwise_cons.2 ⟨fun b hb => ?_, h⟩
        rcases List.mem_cons.1 hb with rfl | hb
        · exact hcd
        · exact Nat.lt_trans hcd (hd b hb)
      · split
        · exact List.pairwise_cons.2 ⟨hd, hl⟩
        · refine List.pairwise_cons.2 ⟨fun b hb => ?_, ih ⟨hl, ?_⟩ hl⟩
          · rcases index_of_mem_add hb with hb | ⟨a, ha, hab⟩
            · simp only [hb]; omega
            · exact hab ▸ hd a ha
          · exact fun a ha => ‹Ordered n ((d, w) :: l)›.2 a (by simp [ha])
  · rcases index_of_mem_add ha with ha | ⟨b, hb, hba⟩
    · exact ha ▸ hc
    · exact hba ▸ h.2 b hb

theorem add_of_lt {c : Nat} {v : α} {l : Line α} (h : ∀ a ∈ l, a.1 < c) :
    add c v l = l ++ [(c, v)] := by
  induction l with
  | nil => rfl
  | cons e l ih =>
    obtain ⟨d, w⟩ := e
    have hd : d < c := h (d, w) (by simp)
    simp only [add]
    rw [if_neg (by omega), if_neg (by omega), ih fun a ha => h a (by simp [ha]), List.cons_append]

/-- The entries of an ordered line that are added one after another make that line. -/
theorem foldl_add_of_pairwise {l : Line α} (h : l.Pairwise fun a b => a.1 < b.1) :
    l.foldl (fun k e => add e.1 e.2 k) [] = l := by
  suffices ∀ k : Line α, (k ++ l).Pairwise (fun a b => a.1 < b.1) →
      l.foldl (fun k e => add e.1 e.2 k) k = k ++ l by
    simpa using this [] h
  clear h
  induction l with
  | nil => simp
  | cons e l ih =>
    intro k hk
    have hlt : ∀ a ∈ k, a.1 < e.1 := fun a ha => (List.pairwise_append.1 hk).2.2 a ha e (by simp)
    have hk' : ((k ++ [e]) ++ l).Pairwise fun a b => a.1 < b.1 := by simpa using hk
    rw [List.foldl_cons, add_of_lt hlt, ih _ hk']
    simp

/-- No entry is zero. -/
def NoZeros (l : Line α) : Prop :=
  ∀ e ∈ l, (e.2 == 0) = false

theorem NoZeros.nil : NoZeros ([] : Line α) := by
  simp [NoZeros]

/-- The entries that are not zero. -/
def nonzero (l : Line α) : Line α :=
  l.filter fun e => !(e.2 == 0)

theorem noZeros_nonzero (l : Line α) : l.nonzero.NoZeros := by
  intro e he
  simpa using (List.mem_filter.1 he).2

theorem NoZeros.nonzero_eq {l : Line α} (h : l.NoZeros) : l.nonzero = l :=
  List.filter_eq_self.2 fun e he => by simp [h e he]

/-- The product with a vector. -/
def activity (l : Line α) (x : Array α) : Checked α :=
  l.foldlM (fun s e => do return s + e.2 * (← Checked.read x e.1)) (-0)

end Line

/-- A value at a place of a matrix. -/
structure Entry (α : Type) where
  row : Nat
  col : Nat
  value : α

/-- A sparse matrix, by rows and by columns. -/
structure Matrix (α : Type) [Scalar α] where
  numCols : Nat
  rows : Array (Line α)
  cols : Array (Line α)
  rows_ordered : ∀ l ∈ rows, l.Ordered numCols
  rows_noZeros : ∀ l ∈ rows, l.NoZeros
  cols_eq : cols = (Array.range numCols).map fun c =>
    rows.toList.zipIdx.filterMap fun (l, r) => (l.lookup c).map (r, ·)

namespace Matrix

variable {α : Type} [Scalar α]

/-- The matrix with given rows. -/
def ofRows (numCols : Nat) (rows : Array (Line α)) (ho : ∀ l ∈ rows, l.Ordered numCols)
    (hz : ∀ l ∈ rows, l.NoZeros) : Matrix α where
  numCols := numCols
  rows := rows
  cols := (Array.range numCols).map fun c =>
    rows.toList.zipIdx.filterMap fun (l, r) => (l.lookup c).map (r, ·)
  rows_ordered := ho
  rows_noZeros := hz
  cols_eq := rfl

def numRows (m : Matrix α) : Nat :=
  m.rows.size

/-- The entries of a row. -/
def row (m : Matrix α) (r : Nat) : Line α :=
  m.rows.getD r []

/-- The entries of a column. -/
def column (m : Matrix α) (c : Nat) : Line α :=
  m.cols.getD c []

/-- The number of places that are not zero. -/
def numElements (m : Matrix α) : Nat :=
  m.rows.foldl (fun n l => n + l.length) 0

@[simp] theorem size_cols (m : Matrix α) : m.cols.size = m.numCols := by
  simp [m.cols_eq]

@[simp] theorem numRows_ofRows {n : Nat} {rows : Array (Line α)}
    {ho : ∀ l ∈ rows, l.Ordered n} {hz : ∀ l ∈ rows, l.NoZeros} :
    (ofRows n rows ho hz).numRows = rows.size := rfl

@[simp] theorem numCols_ofRows {n : Nat} {rows : Array (Line α)}
    {ho : ∀ l ∈ rows, l.Ordered n} {hz : ∀ l ∈ rows, l.NoZeros} :
    (ofRows n rows ho hz).numCols = n := rfl

theorem row_mem (m : Matrix α) (r : Nat) : m.row r ∈ m.rows ∨ m.row r = [] := by
  unfold row
  rcases Nat.lt_or_ge r m.rows.size with h | h
  · simp [Array.getD, h]
  · simp [Array.getD, Nat.not_lt.2 h]

theorem ordered_row (m : Matrix α) (r : Nat) : (m.row r).Ordered m.numCols := by
  rcases m.row_mem r with h | h
  · exact m.rows_ordered _ h
  · exact h ▸ .nil

theorem noZeros_row (m : Matrix α) (r : Nat) : (m.row r).NoZeros := by
  rcases m.row_mem r with h | h
  · exact m.rows_noZeros _ h
  · exact h ▸ .nil

/-- Adds an entry to the rows; one outside of the matrix is passed over. -/
def addEntry (numCols : Nat) (rows : Array (Line α)) (e : Entry α) : Array (Line α) :=
  if e.col < numCols then rows.modify e.row (Line.add e.col e.value) else rows

/-- The rows of all entries. -/
def gather (numRows numCols : Nat) (entries : List (Entry α)) : Array (Line α) :=
  entries.foldl (addEntry numCols) (Array.replicate numRows [])

@[simp] theorem size_addEntry {n : Nat} {rows : Array (Line α)} {e : Entry α} :
    (addEntry n rows e).size = rows.size := by
  unfold addEntry; split <;> simp

theorem ordered_addEntry {n : Nat} {rows : Array (Line α)} {e : Entry α}
    (h : ∀ l ∈ rows, l.Ordered n) : ∀ l ∈ addEntry n rows e, l.Ordered n := by
  intro l hl
  unfold addEntry at hl
  split at hl
  · rename_i hc
    obtain ⟨i, hi, rfl⟩ := Array.mem_iff_getElem.1 hl
    rw [Array.getElem_modify]
    split
    · exact (h _ (Array.getElem_mem _)).add hc
    · exact h _ (Array.getElem_mem _)
  · exact h l hl

theorem size_gather {m n : Nat} {entries : List (Entry α)} :
    (gather m n entries).size = m := by
  suffices ∀ rows : Array (Line α), (entries.foldl (addEntry n) rows).size = rows.size by
    simp [gather, this]
  induction entries with
  | nil => simp
  | cons e l ih => intro rows; simp [ih]

theorem ordered_gather {m n : Nat} {entries : List (Entry α)} :
    ∀ l ∈ gather m n entries, l.Ordered n := by
  suffices ∀ rows : Array (Line α), (∀ l ∈ rows, l.Ordered n) →
      ∀ l ∈ entries.foldl (addEntry n) rows, l.Ordered n by
    refine this _ fun l hl => ?_
    rw [(Array.mem_replicate.1 hl).2]
    exact .nil
  induction entries with
  | nil => exact fun rows h => h
  | cons e l ih => exact fun rows h => ih _ (ordered_addEntry h)

/-- The matrix of the sums of entries. -/
def ofEntries (numRows numCols : Nat) (entries : List (Entry α)) : Matrix α :=
  ofRows numCols ((gather numRows numCols entries).map Line.nonzero)
    (fun l hl => by
      obtain ⟨k, hk, rfl⟩ := Array.mem_map.1 hl
      exact (ordered_gather k hk).filter _)
    (fun l hl => by
      obtain ⟨k, -, rfl⟩ := Array.mem_map.1 hl
      exact k.noZeros_nonzero)

@[simp] theorem numRows_ofEntries {m n : Nat} {entries : List (Entry α)} :
    (ofEntries m n entries).numRows = m := by
  simp [ofEntries, size_gather]

@[simp] theorem numCols_ofEntries {m n : Nat} {entries : List (Entry α)} :
    (ofEntries m n entries).numCols = n := rfl

/-- The matrix of the sums of entries; the first one outside of the matrix is an error. -/
def ofEntries? (numRows numCols : Nat) (entries : List (Entry α)) : Except (Error α) (Matrix α) :=
  match entries.find? fun e => numRows ≤ e.row || numCols ≤ e.col with
  | some e => .error (.entryOutOfRange e.row e.col)
  | none => .ok (ofEntries numRows numCols entries)

theorem size_of_ofEntries? {m n : Nat} {entries : List (Entry α)} {a : Matrix α}
    (h : ofEntries? m n entries = .ok a) : a.numRows = m ∧ a.numCols = n := by
  unfold ofEntries? at h
  split at h
  · cases h
  · cases h; simp

/-! ### Entries row by row -/

/-- The entries of lines, row by row. -/
def entriesOf (lines : List (Line α)) : List (Entry α) :=
  lines.zipIdx.flatMap fun (l, r) => l.map fun e => ⟨r, e.1, e.2⟩

/-- A row gathers the entries that name it, in their order. -/
theorem getElem?_foldl_addEntry {n : Nat} {entries : List (Entry α)}
    (h : ∀ e ∈ entries, e.col < n) (rows : Array (Line α)) (r : Nat) :
    (entries.foldl (addEntry n) rows)[r]? = rows[r]?.map fun l =>
      (entries.filter (·.row == r)).foldl (fun l e => l.add e.col e.value) l := by
  induction entries generalizing rows with
  | nil => simp
  | cons e entries ih =>
    have hc : e.col < n := h e (by simp)
    rw [List.foldl_cons, ih (fun e he => h e (by simp [he])), addEntry, if_pos hc,
      Array.getElem?_modify, List.filter_cons]
    by_cases hr : e.row = r
    · simp only [hr, beq_self_eq_true, if_true, List.foldl_cons, Option.map_map]
      rfl
    · simp [hr]

omit [Scalar α] in
theorem filter_map_entry (l : Line α) (k r : Nat) :
    (l.map fun e => (⟨k, e.1, e.2⟩ : Entry α)).filter (·.row == r) =
      if k = r then l.map fun e => ⟨k, e.1, e.2⟩ else [] := by
  split
  · exact List.filter_eq_self.2 fun e he => by
      obtain ⟨a, -, rfl⟩ := List.mem_map.1 he
      simp [*]
  · exact List.filter_eq_nil_iff.2 fun e he => by
      obtain ⟨a, -, rfl⟩ := List.mem_map.1 he
      simp [*]

omit [Scalar α] in
theorem filter_entriesOf (lines : List (Line α)) (r : Nat) :
    (entriesOf lines).filter (·.row == r) =
      (lines[r]?.getD []).map fun e => ⟨r, e.1, e.2⟩ := by
  -- the first line may have any number `k`, for the induction
  suffices ∀ k, (((lines.zipIdx k).flatMap fun (l, i) =>
      l.map fun e => (⟨i, e.1, e.2⟩ : Entry α)).filter (·.row == r)) =
        (if k ≤ r then lines[r - k]?.getD [] else []).map fun e => ⟨r, e.1, e.2⟩ by
    simpa [entriesOf] using this 0
  induction lines with
  | nil => simp
  | cons l lines ih =>
    intro k
    rw [List.zipIdx_cons, List.flatMap_cons, List.filter_append, filter_map_entry, ih (k + 1)]
    rcases Nat.lt_trichotomy k r with hk | rfl | hk
    · rw [if_neg (by omega), if_pos (by omega), if_pos (by omega),
        show r - k = r - (k + 1) + 1 by omega]
      simp
    · simp [show ¬ k + 1 ≤ k by omega]
    · simp [show k ≠ r by omega, show ¬ k + 1 ≤ r by omega, show ¬ k ≤ r by omega]

omit [Scalar α] in
theorem mem_entriesOf {lines : List (Line α)} {e : Entry α} (h : e ∈ entriesOf lines) :
    e.row < lines.length ∧ ∃ l ∈ lines, (e.col, e.value) ∈ l := by
  obtain ⟨⟨l, r⟩, hl, he⟩ := List.mem_flatMap.1 h
  obtain ⟨a, ha, rfl⟩ := List.mem_map.1 he
  obtain ⟨-, hr, hl⟩ := List.mem_zipIdx hl
  exact ⟨by simpa using hr, l, hl ▸ List.getElem_mem _, ha⟩

theorem gather_entriesOf {n : Nat} {lines : List (Line α)} (h : ∀ l ∈ lines, l.Ordered n) :
    gather lines.length n (entriesOf lines) = lines.toArray := by
  have hc : ∀ e ∈ entriesOf lines, e.col < n := fun e he => by
    obtain ⟨-, l, hl, hel⟩ := mem_entriesOf he
    exact (h l hl).2 _ hel
  refine Array.ext_getElem? fun r => ?_
  rw [gather, getElem?_foldl_addEntry hc, filter_entriesOf]
  rcases Nat.lt_or_ge r lines.length with hr | hr
  · have hl := Line.foldl_add_of_pairwise (h _ (List.getElem_mem hr)).1
    simp [hr, List.foldl_map, hl]
  · simp [Nat.not_lt.2 hr]

/-- The entries of given rows make the matrix of these rows. -/
theorem ofEntries?_entriesOf {n : Nat} {lines : List (Line α)} (ho : ∀ l ∈ lines, l.Ordered n)
    (hz : ∀ l ∈ lines, l.NoZeros) :
    ofEntries? lines.length n (entriesOf lines) =
      .ok (ofRows n lines.toArray (by simpa using ho) (by simpa using hz)) := by
  have hin : (entriesOf lines).find? (fun e => lines.length ≤ e.row || n ≤ e.col) = none := by
    rw [List.find?_eq_none]
    intro e he
    obtain ⟨hr, l, hl, hel⟩ := mem_entriesOf he
    have hc : e.col < n := (ho l hl).2 _ hel
    simp [hr, hc]
  have hrows : (gather lines.length n (entriesOf lines)).map Line.nonzero = lines.toArray := by
    rw [gather_entriesOf ho, List.map_toArray, List.map_congr_left fun l hl => (hz l hl).nonzero_eq,
      List.map_id']
  unfold ofEntries?
  rw [hin]
  simp only [ofEntries, hrows]

/-- The product with a vector, row by row. -/
def activities (m : Matrix α) (x : Array α) : Checked (Array α) :=
  m.rows.mapM fun l => l.activity x

end Matrix

end PrimalHeuristics
