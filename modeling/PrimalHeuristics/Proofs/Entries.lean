import PrimalHeuristics.Proofs.Columns
import PrimalHeuristics.Proofs.Points

/-!
# The matrix of summed entries

A matrix is made of entries in any order, several of which may name the same place. It holds their
sum in their order, unless that is zero, and its rows and columns hold the same. Over exact numbers
its product with a vector is that of the dense matrix, row by row or column by column, and the order
of the entries makes no difference.

* `Entry.sumAt`: what entries add up to at a place;
* `Matrix.IsMadeOf`: a matrix holds these sums, by rows and by columns;
* `Matrix.isMadeOf_ofEntries`, `Matrix.IsMadeOf.unique`: there is one such matrix;
* `Matrix.IsMadeOf.activities_eq_dense`, `Matrix.activities_eq_byColumns`: its products.
-/

namespace PrimalHeuristics

variable {α : Type} [Scalar α]

/-! ### Sums at a place -/

namespace Entry

/-- The sum of values in their order, which starts with the first one; none if there is no value. -/
def sumInOrder : List α → Option α
  | [] => none
  | v :: l => some (l.foldl (· + ·) v)

/-- The entry is for a place. -/
def isAt (r c : Nat) (e : Entry α) : Bool :=
  e.row == r && e.col == c

/-- The sum of the values that are given for a place. -/
def sumAt (entries : List (Entry α)) (r c : Nat) : Option α :=
  sumInOrder ((entries.filter (isAt r c)).map (·.value))

/-- The sum at a place, unless it is zero. -/
def nonzeroSumAt (entries : List (Entry α)) (r c : Nat) : Option α :=
  (sumAt entries r c).filter fun v => !(v == 0)

/-- The entry is inside of a matrix. -/
def IsInside (numRows numCols : Nat) (e : Entry α) : Prop :=
  e.row < numRows ∧ e.col < numCols

omit [Scalar α] in
@[simp] theorem isAt_iff {e : Entry α} {r c : Nat} :
    e.isAt r c = true ↔ e.row = r ∧ e.col = c := by
  simp [isAt]

/-- A value added to what there is so far. -/
def addSome (s : Option α) (v : α) : Option α :=
  some (match s with
    | some w => w + v
    | none => v)

theorem foldl_addSome_some (l : List α) (v : α) :
    l.foldl addSome (some v) = some (l.foldl (· + ·) v) := by
  induction l generalizing v with
  | nil => rfl
  | cons w l ih => exact ih (v + w)

theorem sumInOrder_eq_foldl (l : List α) : sumInOrder l = l.foldl addSome none := by
  cases l with
  | nil => rfl
  | cons v l => exact (foldl_addSome_some l v).symm

/-- There is a sum only at the place of an entry. -/
theorem exists_of_sumAt {entries : List (Entry α)} {r c : Nat} {v : α}
    (h : sumAt entries r c = some v) : ∃ e ∈ entries, e.row = r ∧ e.col = c := by
  have hne : entries.filter (isAt r c) ≠ [] := by
    intro hnil
    rw [sumAt, hnil] at h
    contradiction
  obtain ⟨e, he⟩ := List.exists_mem_of_ne_nil _ hne
  obtain ⟨he, hplace⟩ := List.mem_filter.1 he
  exact ⟨e, he, isAt_iff.1 hplace⟩

/-- The sum at a place, with one more value before the others. -/
theorem sumAt_cons (e : Entry α) (l : List (Entry α)) (r c : Nat) : sumAt (e :: l) r c =
    if e.isAt r c then some (((l.filter (isAt r c)).map (·.value)).foldl (· + ·) e.value)
    else sumAt l r c := by
  rw [sumAt, List.filter_cons]
  split <;> rfl

end Entry

/-! ### Lines -/

namespace Line

omit [Scalar α] in
theorem lookup_cons_eq (c d : Nat) (w : α) (l : Line α) :
    List.lookup c ((d, w) :: l) = if c = d then some w else l.lookup c := by
  rw [List.lookup_cons]
  by_cases h : c = d
  · simp [h]
  · simp [h, show (c == d) = false by simpa using h]

omit [Scalar α] in
/-- Lines that hold the same are equal. -/
theorem Increasing.ext {k l : Line α} (hk : k.Increasing) (hl : l.Increasing)
    (h : ∀ c v, (c, v) ∈ k ↔ (c, v) ∈ l) : k = l := by
  have hnodup : ∀ {l : Line α}, l.Increasing → l.Nodup :=
    fun hl => hl.imp fun hlt heq => (heq ▸ hlt).false
  refine ((List.perm_ext_iff_of_nodup (hnodup hk) (hnodup hl)).2 fun e => h e.1 e.2).eq_of_pairwise
    (fun a b _ _ hab hba => absurd hab hba.asymm) hk hl

/-- A value that is added at an index, and all other values stay. -/
theorem lookup_add {l : Line α} (h : l.Increasing) (c d : Nat) (v : α) :
    (l.add c v).lookup d = if d = c then Entry.addSome (l.lookup c) v else l.lookup d := by
  induction l with
  | nil => simp [add, lookup_cons_eq, Entry.addSome]
  | cons e l ih =>
    obtain ⟨i, w⟩ := e
    obtain ⟨hi, hl⟩ := List.pairwise_cons.1 h
    rw [add]
    rcases Nat.lt_trichotomy c i with hlt | rfl | hgt
    · have hnone : List.lookup c ((i, w) :: l) = none :=
        lookup_eq_none.2 (List.forall_mem_cons.2 ⟨hlt.ne', fun e he => (hlt.trans (hi e he)).ne'⟩)
      rw [if_pos hlt, lookup_cons_eq, hnone, Entry.addSome]
    · rw [if_neg (lt_irrefl c), if_pos rfl, lookup_cons_eq, lookup_cons_eq, lookup_cons_eq,
        if_pos rfl, Entry.addSome]
      by_cases hd : d = c
      · rw [if_pos hd, if_pos hd]
      · rw [if_neg hd, if_neg hd, if_neg hd]
    · rw [if_neg hgt.asymm, if_neg hgt.ne', lookup_cons_eq, lookup_cons_eq, lookup_cons_eq,
        if_neg hgt.ne', ih hl]
      by_cases hd : d = i
      · rw [if_pos hd, if_neg (hd ▸ hgt.ne), if_pos hd]
      · rw [if_neg hd, if_neg hd]

/-- Values that are added one after another are summed up at each index. -/
theorem lookup_foldl_add {n : Nat} {entries : List (Entry α)} (hc : ∀ e ∈ entries, e.col < n)
    {l : Line α} (h : l.Ordered n) (c : Nat) :
    (entries.foldl (fun l e => l.add e.col e.value) l).lookup c =
      ((entries.filter (·.col == c)).map (·.value)).foldl Entry.addSome (l.lookup c) := by
  induction entries generalizing l with
  | nil => rfl
  | cons e entries ih =>
    obtain ⟨he, hc⟩ := List.forall_mem_cons.1 hc
    rw [List.foldl_cons, ih hc (h.add he), lookup_add h.1, List.filter_cons]
    by_cases hec : c = e.col
    · subst hec
      rw [if_pos rfl, if_pos (beq_self_eq_true _), List.map_cons, List.foldl_cons]
    · rw [if_neg hec, if_neg (by simpa using Ne.symm hec)]

omit [Scalar α] in
/-- A sum over a line, index by index. -/
theorem sum_map_eq_sum_lookup {M : Type} [AddCommMonoid M] {n : Nat} {l : Line α}
    (h : l.Ordered n) (f : Nat → α → M) :
    (l.map fun e => f e.1 e.2).sum = ∑ c ∈ Finset.range n, (l.lookup c).elim 0 (f c) := by
  induction l with
  | nil => simp
  | cons e l ih =>
    obtain ⟨d, w⟩ := e
    obtain ⟨hd, hl⟩ := List.pairwise_cons.1 h.1
    obtain ⟨hdn, hln⟩ := List.forall_mem_cons.1 h.2
    have hnone : l.lookup d = none := lookup_eq_none.2 fun e he => (hd e he).ne'
    have hterm : ∀ c, (List.lookup c ((d, w) :: l)).elim 0 (f c) =
        (if c = d then f d w else 0) + (l.lookup c).elim 0 (f c) := by
      intro c
      rw [lookup_cons_eq]
      by_cases hc : c = d
      · subst hc
        simp [hnone]
      · simp [hc]
    rw [List.map_cons, List.sum_cons, ih ⟨hl, hln⟩, Finset.sum_congr rfl fun c _ => hterm c,
      Finset.sum_add_distrib, Finset.sum_ite_eq', if_pos (Finset.mem_range.2 hdn)]

end Line

/-! ### Rows and columns -/

namespace Matrix

/-- The matrix holds what entries inside of it add up to at each place, unless that is zero. -/
structure IsMadeOf (m : Matrix α) (numRows numCols : Nat) (entries : List (Entry α)) : Prop where
  isInside : ∀ e ∈ entries, e.IsInside numRows numCols
  numRows_eq : m.numRows = numRows
  numCols_eq : m.numCols = numCols
  increasing_row : ∀ r, (m.row r).Increasing
  mem_row : ∀ r c v, (c, v) ∈ m.row r ↔ Entry.nonzeroSumAt entries r c = some v
  increasing_column : ∀ c, (m.column c).Increasing
  mem_column : ∀ r c v, (r, v) ∈ m.column c ↔ (c, v) ∈ m.row r
  numElements_eq : m.numElements = ((Finset.range numRows ×ˢ Finset.range numCols).filter fun p =>
    (Entry.nonzeroSumAt entries p.1 p.2).isSome).card

variable {m : Matrix α} {numRows numCols : Nat} {entries : List (Entry α)}

/-- Before zeros are left out, rows hold the sums. -/
theorem lookup_gather (hin : ∀ e ∈ entries, e.IsInside numRows numCols) (r c : Nat) :
    ((gather numRows numCols entries).getD r []).lookup c = Entry.sumAt entries r c := by
  rw [Array.getD_eq_getD_getElem?, gather, getElem?_foldl_addEntry fun e he => (hin e he).2,
    Array.getElem?_replicate]
  split
  · have hc : ∀ e ∈ entries.filter (·.row == r), e.col < numCols :=
      fun e he => (hin e (List.mem_filter.1 he).1).2
    have hfilter : (entries.filter (·.row == r)).filter (·.col == c) =
        entries.filter (Entry.isAt r c) := by
      rw [List.filter_filter]
      exact List.filter_congr fun e _ => Bool.and_comm _ _
    rw [Option.map_some, Option.getD_some, Line.lookup_foldl_add hc .nil, hfilter, Entry.sumAt,
      Entry.sumInOrder_eq_foldl, List.lookup_nil]
  · rename_i hr
    rw [Option.map_none, Option.getD_none, List.lookup_nil, eq_comm,
      Option.eq_none_iff_forall_ne_some]
    intro v hv
    obtain ⟨e, he, rfl, -⟩ := Entry.exists_of_sumAt hv
    exact hr (hin e he).1

theorem row_ofEntries (r : Nat) : (ofEntries numRows numCols entries).row r =
    ((gather numRows numCols entries).getD r []).nonzero := by
  rw [row, ofEntries, ofRows, Array.getD_eq_getD_getElem?, Array.getElem?_map,
    Array.getD_eq_getD_getElem?]
  cases (gather numRows numCols entries)[r]? <;> rfl

/-- A row holds the sums that are not zero. -/
theorem mem_row_ofEntries (hin : ∀ e ∈ entries, e.IsInside numRows numCols) {r c : Nat} {v : α} :
    (c, v) ∈ (ofEntries numRows numCols entries).row r ↔
      Entry.nonzeroSumAt entries r c = some v := by
  have hordered : ((gather numRows numCols entries).getD r []).Ordered numCols := by
    rw [Array.getD_eq_getD_getElem?]
    cases h : (gather numRows numCols entries)[r]? with
    | none => exact .nil
    | some l => exact ordered_gather l (Array.mem_of_getElem? h)
  rw [row_ofEntries, Line.nonzero, List.mem_filter, ← Line.lookup_eq_some hordered.1,
    lookup_gather hin, Entry.nonzeroSumAt, Option.filter_eq_some_iff]

theorem toList_rows (m : Matrix α) : m.rows.toList = (List.range m.numRows).map m.row := by
  refine List.ext_getElem (by simp [numRows]) fun r hr _ => ?_
  have hr : r < m.rows.size := by simpa using hr
  simp [row_eq_getElem hr]

/-- The entries of a matrix, row by row. -/
theorem numElements_eq_sum (m : Matrix α) :
    m.numElements = ∑ r ∈ Finset.range m.numRows, (m.row r).length := by
  have hlengths : m.numElements = (m.rows.toList.map List.length).sum := by
    rw [numElements, ← Array.foldl_toList, List.sum_eq_foldl, List.foldl_map]
  rw [hlengths, toList_rows, List.map_map]
  rfl

/-- The number of entries is that of the places with one. -/
theorem numElements_eq_card (m : Matrix α) :
    m.numElements = ((Finset.range m.numRows ×ˢ Finset.range m.numCols).filter fun p =>
      ((m.row p.1).lookup p.2).isSome).card := by
  rw [numElements_eq_sum, Finset.card_filter, Finset.sum_product]
  refine Finset.sum_congr rfl fun r _ => ?_
  have hlength := Line.sum_map_eq_sum_lookup (m.ordered_row r) fun _ _ => 1
  rw [List.map_const', List.sum_replicate, smul_eq_mul, mul_one] at hlength
  rw [hlength]
  refine Finset.sum_congr rfl fun c _ => ?_
  cases (m.row r).lookup c <;> rfl

/-- Entries inside of a matrix make a matrix of their sums. -/
theorem isMadeOf_ofEntries (hin : ∀ e ∈ entries, e.IsInside numRows numCols) :
    (ofEntries numRows numCols entries).IsMadeOf numRows numCols entries where
  isInside := hin
  numRows_eq := numRows_ofEntries
  numCols_eq := numCols_ofEntries
  increasing_row := increasing_row _
  mem_row _ _ _ := mem_row_ofEntries hin
  increasing_column := increasing_column _
  mem_column _ _ _ := mem_column
  numElements_eq := by
    have hlookup : ∀ r c, ((ofEntries numRows numCols entries).row r).lookup c =
        Entry.nonzeroSumAt entries r c := fun r c => Option.ext fun v => by
      rw [Line.lookup_eq_some (increasing_row _ r), mem_row_ofEntries hin]
    rw [numElements_eq_card, numRows_ofEntries, numCols_ofEntries]
    simp only [hlookup]

namespace IsMadeOf

theorem lookup_row (h : m.IsMadeOf numRows numCols entries) (r c : Nat) :
    (m.row r).lookup c = Entry.nonzeroSumAt entries r c :=
  Option.ext fun v => by rw [Line.lookup_eq_some (h.increasing_row r), h.mem_row]

/-- Only the sums of entries matter to the matrix. -/
theorem unique {m' : Matrix α} {entries' : List (Entry α)}
    (h : m.IsMadeOf numRows numCols entries) (h' : m'.IsMadeOf numRows numCols entries')
    (hsum : ∀ r c, Entry.sumAt entries r c = Entry.sumAt entries' r c) : m = m' := by
  have hrow : ∀ r, m.row r = m'.row r := fun r =>
    (h.increasing_row r).ext (h'.increasing_row r) fun c v => by
      rw [h.mem_row, h'.mem_row, Entry.nonzeroSumAt, hsum, Entry.nonzeroSumAt]
  have hnumRows : m.numRows = m'.numRows := h.numRows_eq.trans h'.numRows_eq.symm
  have hrows : m.rows = m'.rows := by
    rw [← Array.toList_inj, toList_rows, toList_rows, hnumRows, funext hrow]
  have hnumCols : m.numCols = m'.numCols := h.numCols_eq.trans h'.numCols_eq.symm
  have hcols : m.cols = m'.cols := by rw [m.cols_eq, m'.cols_eq, hrows, hnumCols]
  cases m
  cases m'
  simp only at hnumCols hrows hcols
  subst hnumCols hrows hcols
  rfl

end IsMadeOf

/-! ### Products -/

/-- The product with a vector, column by column. -/
def activitiesByColumns (m : Matrix α) (x : Array α) : Array α :=
  (List.range m.numCols).foldl
    (fun y c => Line.addTo ((m.column c).map fun e => (e.1, e.2 * x.getD c 0)) y)
    (Array.replicate m.numRows 0)

/-- The product of a matrix that has a value at each place, which is zero where no entry is. -/
def denseProduct (numRows numCols : Nat) (entries : List (Entry Exact)) (x : Array Exact) :
    Array Exact :=
  (Array.range numRows).map fun r =>
    ∑ c ∈ Finset.range numCols, (Entry.sumAt entries r c).getD 0 * x.getD c 0

section Exact

open PrimalHeuristics.Exact

variable {m : Matrix Exact} {entries entries' : List (Entry Exact)} {x : Array Exact}

/-- A row times a vector, column by column. -/
theorem dot_row_eq_sum (m : Matrix Exact) (x : Array Exact) (r : Nat) : (m.row r).dot x =
    ∑ c ∈ Finset.range m.numCols, ((m.row r).lookup c).elim 0 (· * x.getD c 0) := by
  rw [Exact.dot_eq_sum, Line.sum_map_eq_sum_lookup (m.ordered_row r) fun c v => v * x.getD c 0]

/-- What a place adds to a product: a value that is zero may be left out of the matrix. -/
theorem elim_nonzeroSumAt {c : Nat} (hx : Scalar.isFinite (x.getD c 0) = true) (r : Nat) :
    (Entry.nonzeroSumAt entries r c).elim 0 (· * x.getD c 0) =
      (Entry.sumAt entries r c).getD 0 * x.getD c 0 := by
  have hzero : finite 0 * x.getD c 0 = finite 0 := by
    rw [isFinite_iff.1 hx, finite_mul, zero_mul]
  rw [Entry.nonzeroSumAt]
  rcases Entry.sumAt entries r c with _ | ⟨q⟩ | s | _
  · exact hzero.symm
  · by_cases hq : q = 0
    · subst hq
      exact hzero.symm
    · rw [Option.filter_some_pos (by simp [finite_beq_zero, hq])]
      rfl
  · rfl
  · rfl

theorem IsMadeOf.activities_eq_dense (h : m.IsMadeOf numRows numCols entries)
    (hsize : numCols ≤ x.size) (hx : ∀ c < numCols, Scalar.isFinite (x.getD c 0) = true) :
    m.activities x = .ok (denseProduct numRows numCols entries x) := by
  obtain rfl := h.numRows_eq
  obtain rfl := h.numCols_eq
  rw [activities_eq hsize, denseProduct]
  refine congrArg _ (Array.ext (by simp [numRows]) fun r hr _ => ?_)
  have hr : r < m.rows.size := by simpa using hr
  rw [Array.getElem_map, ← row_eq_getElem hr, dot_row_eq_sum, Array.getElem_map,
    Array.getElem_range]
  refine Finset.sum_congr rfl fun c hc => ?_
  rw [h.lookup_row, elim_nonzeroSumAt (hx c (Finset.mem_range.1 hc))]

/-- A column after another, each entry gains what its row has there. -/
theorem getD_foldl_addTo (m : Matrix Exact) (x : Array Exact) {r : Nat} (cs : List Nat)
    {y : Array Exact} (hr : r < y.size) :
    (cs.foldl (fun y c => Line.addTo ((m.column c).map fun e => (e.1, e.2 * x.getD c 0)) y)
      y).getD r 0 =
      y.getD r 0 + (cs.map fun c => ((m.row r).lookup c).elim 0 (· * x.getD c 0)).sum := by
  induction cs generalizing y with
  | nil => simp
  | cons c cs ih =>
    have hincreasing : Line.Increasing ((m.column c).map fun e => (e.1, e.2 * x.getD c 0)) :=
      List.pairwise_map.2 (m.increasing_column c)
    rw [List.foldl_cons, ih (hr.trans_eq (Line.size_addTo ..).symm), Line.getD_addTo hincreasing hr,
      Line.lookup_map _ (· * x.getD c 0), lookup_column, List.map_cons, List.sum_cons, ← add_assoc]
    cases (m.row r).lookup c with
    | none => rw [Option.map_none, Option.elim_none, add_zero]
    | some v => rfl

theorem size_activitiesByColumns (m : Matrix α) (x : Array α) :
    (m.activitiesByColumns x).size = m.numRows := by
  suffices ∀ (cs : List Nat) (y : Array α), (cs.foldl (fun y c =>
      Line.addTo ((m.column c).map fun e => (e.1, e.2 * x.getD c 0)) y) y).size = y.size by
    rw [activitiesByColumns, this, Array.size_replicate]
  intro cs
  induction cs with
  | nil => exact fun y => rfl
  | cons c cs ih => exact fun y => (ih _).trans (Line.size_addTo ..)

theorem getD_activitiesByColumns (m : Matrix Exact) (x : Array Exact) {r : Nat}
    (hr : r < m.numRows) : (m.activitiesByColumns x).getD r 0 = (m.row r).dot x := by
  have hstart : (Array.replicate m.numRows (0 : Exact)).getD r 0 = 0 := by
    simp [Array.getD_eq_getD_getElem?, hr]
  rw [activitiesByColumns, getD_foldl_addTo m x _ (by simpa using hr), hstart, zero_add,
    dot_row_eq_sum]
  rfl

/-- The rows and the columns of a matrix have the same product with a vector. -/
theorem activities_eq_byColumns (hsize : m.numCols ≤ x.size) :
    m.activities x = .ok (m.activitiesByColumns x) := by
  have hsizes : (m.rows.map (·.dot x)).size = (m.activitiesByColumns x).size := by
    rw [size_activitiesByColumns, Array.size_map, numRows]
  rw [activities_eq hsize]
  refine congrArg _ (Array.ext hsizes fun r hr hr' => ?_)
  have hlt : r < m.numRows := hr'.trans_eq (m.size_activitiesByColumns x)
  rw [Array.getElem_eq_getD 0, getD_map_dot hlt, Array.getElem_eq_getD 0,
    getD_activitiesByColumns m x hlt]

/-- The order of values makes no difference to their sum. -/
theorem sumAt_of_perm (h : entries.Perm entries') (r c : Nat) :
    Entry.sumAt entries r c = Entry.sumAt entries' r c := by
  rw [Entry.sumAt, Entry.sumAt, Entry.sumInOrder_eq_foldl, Entry.sumInOrder_eq_foldl]
  refine ((h.filter _).map _).foldl_eq' (fun v _ w _ s => ?_) none
  cases s with
  | none => simp only [Entry.addSome, add_comm]
  | some u => simp only [Entry.addSome, add_right_comm]

end Exact

end Matrix

end PrimalHeuristics
