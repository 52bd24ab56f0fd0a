import PrimalHeuristics.Proofs.Entries

/-!
# Packed storage of a matrix

A matrix may be kept in shared arrays: all entries one after another, line by line, and the places
where the lines start. The entries come there by sorting; those for the same place then follow one
another and are added up, and a second sort makes the columns.

* `PackedLines`: the lines of one orientation, `PackedLines.line_ofSorted`: what is kept of each;
* `Entry.IsSorted.sumAt_coalesced`, `Entry.mem_kept`: sorting and adding up leaves the sums;
* `PackedMatrix.packs_ofEntries`: the packed matrix holds the lines of the matrix of sums;
* `Matrix.representsEntries`: what the matrix of entries is, packed or not.
-/

namespace PrimalHeuristics

variable {α : Type}

/-! ### Lines in shared arrays -/

/-- Lines one after another: line `i` owns the places from `starts[i]` up to `starts[i + 1]`. -/
structure PackedLines (α : Type) where
  starts : Array Nat
  indices : Array Nat
  values : Array α

namespace PackedLines

/-- The entries of a line. -/
def line (p : PackedLines α) (i : Nat) : Line α :=
  ((p.indices.extract (p.starts.getD i 0) (p.starts.getD (i + 1) 0)).zip
    (p.values.extract (p.starts.getD i 0) (p.starts.getD (i + 1) 0))).toList

/-- The number of entries of each line, at the place after it. -/
def counts (numLines : Nat) (entries : List (Entry α)) : Array Nat :=
  entries.foldl (fun s e => s.modify (e.row + 1) (· + 1)) (Array.replicate (numLines + 1) 0)

/-- Each number is added to the next one, for the first `n` of them. -/
def accumulate (n : Nat) (counts : Array Nat) : Array Nat :=
  (List.range n).foldl (fun s i => s.modify (i + 1) (· + s.getD i 0)) counts

/-- The lines of entries that come line by line. -/
def ofSorted (numLines : Nat) (entries : List (Entry α)) : PackedLines α where
  starts := accumulate numLines (counts numLines entries)
  indices := (entries.map (·.col)).toArray
  values := (entries.map (·.value)).toArray

variable {numLines : Nat} {entries : List (Entry α)}

theorem size_counts : (counts numLines entries).size = numLines + 1 := by
  suffices ∀ s : Array Nat,
      (entries.foldl (fun s e => s.modify (e.row + 1) (· + 1)) s).size = s.size by
    rw [counts, this, Array.size_replicate]
  induction entries with
  | nil => exact fun s => rfl
  | cons e l ih => exact fun s => (ih _).trans Array.size_modify

theorem accumulate_succ (n : Nat) (s : Array Nat) : accumulate (n + 1) s =
    (accumulate n s).modify (n + 1) (· + (accumulate n s).getD n 0) := by
  rw [accumulate, List.range_succ, List.foldl_append]
  rfl

theorem size_accumulate (n : Nat) (s : Array Nat) : (accumulate n s).size = s.size := by
  induction n with
  | zero => rfl
  | succ n ih => rw [accumulate_succ, Array.size_modify, ih]

theorem getD_counts {k : Nat} (hk : k ≤ numLines) :
    (counts numLines entries).getD k 0 = entries.countP fun e => e.row + 1 == k := by
  suffices ∀ s : Array Nat, k < s.size →
      (entries.foldl (fun s e => s.modify (e.row + 1) (· + 1)) s).getD k 0 =
        s.getD k 0 + entries.countP fun e => e.row + 1 == k by
    rw [counts, this _ (by simpa using Nat.lt_succ_of_le hk)]
    simp [Array.getD_eq_getD_getElem?, Nat.lt_succ_of_le hk]
  induction entries with
  | nil => exact fun s _ => rfl
  | cons e l ih =>
    intro s hs
    rw [List.foldl_cons, ih _ (by simpa using hs), getD_modify hs, List.countP_cons]
    by_cases he : e.row + 1 = k
    · simp only [he, if_true, beq_self_eq_true]
      omega
    · rw [if_neg he, if_neg (by simpa using he), add_zero]

theorem countP_row_succ (entries : List (Entry α)) (j : Nat) :
    entries.countP (fun e => decide (e.row < j + 1)) =
      entries.countP (fun e => decide (e.row < j)) +
        entries.countP fun e => e.row + 1 == j + 1 := by
  induction entries with
  | nil => rfl
  | cons e l ih =>
    rw [List.countP_cons, List.countP_cons, List.countP_cons, ih]
    rcases Nat.lt_trichotomy e.row j with h | h | h
    · simp [h, h.ne, Nat.lt_succ_of_lt h]
      omega
    · simp [h]
      omega
    · simp [h.ne', h.not_gt, Nat.not_lt.2 (Nat.succ_le_of_lt h)]

/-- The entries of the first lines, line by line. -/
theorem countP_row_eq_sum (entries : List (Entry α)) (n : Nat) :
    entries.countP (fun e => decide (e.row < n)) =
      ∑ i ∈ Finset.range n, (entries.filter (·.row == i)).length := by
  induction n with
  | zero => simp
  | succ n ih =>
    rw [countP_row_succ, ih, Finset.sum_range_succ, ← List.countP_eq_length_filter]
    refine congrArg _ (List.countP_congr fun e _ => ?_)
    rw [beq_iff_eq, beq_iff_eq, Nat.succ_inj]

/-- A line starts after the entries of all lines before it. -/
theorem getD_starts {k : Nat} (hk : k ≤ numLines) :
    (ofSorted numLines entries).starts.getD k 0 =
      entries.countP fun e => decide (e.row < k) := by
  -- the first `n` lines have their starts already, the others still the counts
  suffices ∀ n ≤ numLines, ∀ k ≤ numLines, (accumulate n (counts numLines entries)).getD k 0 =
      if k ≤ n then entries.countP fun e => decide (e.row < k)
      else entries.countP fun e => e.row + 1 == k by
    rw [ofSorted, this numLines le_rfl k hk, if_pos hk]
  intro n hn
  induction n with
  | zero =>
    intro k hk
    rw [show accumulate 0 (counts numLines entries) = counts numLines entries from rfl,
      getD_counts hk]
    split
    · obtain rfl : k = 0 := by omega
      simp
    · rfl
  | succ n ih =>
    intro k hk
    have ih := ih (Nat.le_of_succ_le hn)
    have hsize : k < (accumulate n (counts numLines entries)).size := by
      rw [size_accumulate, size_counts]
      omega
    rw [accumulate_succ, getD_modify hsize, ih k hk, ih n (by omega), if_pos le_rfl]
    by_cases hkn : n + 1 = k
    · subst hkn
      rw [if_pos rfl, if_neg (by omega), if_pos le_rfl, countP_row_succ, Nat.add_comm]
    · simp only [if_neg hkn, show (k ≤ n + 1) = (k ≤ n) by ext; omega]

/-- Entries that come line by line are those before a line and the others. -/
theorem filter_append_filter (h : entries.Pairwise fun a b => a.row ≤ b.row) (i : Nat) :
    (entries.filter fun e => decide (e.row < i)) ++ (entries.filter fun e => decide (i ≤ e.row)) =
      entries := by
  induction entries with
  | nil => rfl
  | cons e l ih =>
    obtain ⟨he, hl⟩ := List.pairwise_cons.1 h
    rcases Nat.lt_or_ge e.row i with hi | hi
    · rw [List.filter_cons_of_pos (by simpa using hi), List.filter_cons_of_neg (by simpa using hi),
        List.cons_append, ih hl]
    · have hall : ∀ a ∈ e :: l, i ≤ a.row :=
        List.forall_mem_cons.2 ⟨hi, fun a ha => hi.trans (he a ha)⟩
      rw [List.filter_eq_nil_iff.2 fun a ha => by simpa using hall a ha,
        List.filter_eq_self.2 fun a ha => by simpa using hall a ha, List.nil_append]

theorem take_countP (h : entries.Pairwise fun a b => a.row ≤ b.row) (i : Nat) :
    entries.take (entries.countP fun e => decide (e.row < i)) =
      entries.filter fun e => decide (e.row < i) := by
  have hsplit := filter_append_filter h i
  rw [List.countP_eq_length_filter]
  nth_rewrite 2 [← hsplit]
  exact List.take_left

theorem drop_countP (h : entries.Pairwise fun a b => a.row ≤ b.row) (i : Nat) :
    entries.drop (entries.countP fun e => decide (e.row < i)) =
      entries.filter fun e => decide (i ≤ e.row) := by
  have hsplit := filter_append_filter h i
  rw [List.countP_eq_length_filter]
  nth_rewrite 2 [← hsplit]
  exact List.drop_left

/-- The entries for a line stand between the starts of the line and of the next one. -/
theorem extract_countP (h : entries.Pairwise fun a b => a.row ≤ b.row) (i : Nat) :
    entries.extract (entries.countP fun e => decide (e.row < i))
        (entries.countP fun e => decide (e.row < i + 1)) =
      entries.filter (·.row == i) := by
  have hcount : entries.countP (fun e => decide (e.row < i)) =
      (entries.filter fun e => decide (e.row < i + 1)).countP fun e => decide (e.row < i) := by
    rw [List.countP_filter]
    refine List.countP_congr fun e _ => ?_
    simp only [decide_eq_true_eq, Bool.and_eq_true]
    omega
  rw [List.extract, ← List.drop_take, take_countP h, hcount, drop_countP (h.filter _),
    List.filter_filter]
  refine List.filter_congr fun e _ => ?_
  rw [Bool.eq_iff_iff, Bool.and_eq_true, decide_eq_true_eq, decide_eq_true_eq, beq_iff_eq]
  omega

/-- A line keeps the entries for it, in their order. -/
theorem line_ofSorted (h : entries.Pairwise fun a b => a.row ≤ b.row) {i : Nat}
    (hi : i < numLines) : (ofSorted numLines entries).line i =
      (entries.filter (·.row == i)).map fun e => (e.col, e.value) := by
  rw [line, getD_starts hi.le, getD_starts (Nat.succ_le_of_lt hi), Array.toList_zip,
    Array.toList_extract, Array.toList_extract, ← extract_countP h i]
  simp only [ofSorted, List.extract, ← List.map_drop, ← List.map_take, List.zip_map']

end PackedLines

/-! ### Sorting -/

namespace Entry

/-- The entry does not come after the other one, row by row. -/
def notAfter (a b : Entry α) : Bool :=
  decide (a.row < b.row) || (a.row == b.row && decide (a.col ≤ b.col))

/-- The entry comes before the other one, row by row. -/
def IsBefore (a b : Entry α) : Prop :=
  a.row < b.row ∨ a.row = b.row ∧ a.col < b.col

/-- The entries come in the order of their places. -/
def IsSorted (l : List (Entry α)) : Prop :=
  l.Pairwise fun a b => a.notAfter b = true

/-- The entries come in the order of their places, and no place is named twice. -/
def IsStrict (l : List (Entry α)) : Prop :=
  l.Pairwise IsBefore

/-- The entry with rows and columns exchanged. -/
def transpose (e : Entry α) : Entry α :=
  ⟨e.col, e.row, e.value⟩

/-- Entries in the order of their places; those for the same place keep their order. -/
def sorted (entries : List (Entry α)) : List (Entry α) :=
  entries.mergeSort notAfter

variable {a b : Entry α} {l : List (Entry α)} {r c : Nat} {v : α}

theorem notAfter_iff : a.notAfter b = true ↔ a.row < b.row ∨ a.row = b.row ∧ a.col ≤ b.col := by
  simp [notAfter]

theorem notAfter_trans (a b c : Entry α) (hab : a.notAfter b = true) (hbc : b.notAfter c = true) :
    a.notAfter c = true := by
  rw [notAfter_iff] at *
  omega

theorem notAfter_total (a b : Entry α) : (a.notAfter b || b.notAfter a) = true := by
  rw [Bool.or_eq_true, notAfter_iff, notAfter_iff]
  omega

theorem isSorted_sorted (l : List (Entry α)) : IsSorted (sorted l) :=
  List.pairwise_mergeSort notAfter_trans notAfter_total l

/-- Sorting leaves the entries for each place in their order. -/
theorem filter_sorted (l : List (Entry α)) (r c : Nat) :
    (sorted l).filter (isAt r c) = l.filter (isAt r c) := by
  have hsame : IsSorted (l.filter (isAt r c)) := by
    refine List.pairwise_of_forall_mem_list fun a ha b hb => ?_
    obtain ⟨har, hac⟩ := isAt_iff.1 (List.mem_filter.1 ha).2
    obtain ⟨hbr, hbc⟩ := isAt_iff.1 (List.mem_filter.1 hb).2
    exact notAfter_iff.2 (.inr ⟨har.trans hbr.symm, (hac.trans hbc.symm).le⟩)
  have hsub : ((l.filter (isAt r c)).filter (isAt r c)).Sublist ((sorted l).filter (isAt r c)) :=
    (List.sublist_mergeSort notAfter_trans notAfter_total hsame List.filter_sublist).filter _
  have hlength := ((List.mergeSort_perm l notAfter).filter (isAt r c)).length_eq
  simp only [List.filter_filter, Bool.and_self] at hsub
  exact (hsub.eq_of_length hlength.symm).symm

/-- All that follows an entry for another place is for later places. -/
theorem IsSorted.isBefore (h : IsSorted (a :: b :: l)) (hne : ¬ (a.row = b.row ∧ a.col = b.col)) :
    ∀ d ∈ b :: l, a.IsBefore d := by
  intro d hd
  obtain ⟨ha, hl⟩ := List.pairwise_cons.1 h
  have hab := notAfter_iff.1 (ha b List.mem_cons_self)
  have hbd : b.row < d.row ∨ b.row = d.row ∧ b.col ≤ d.col := by
    rcases List.mem_cons.1 hd with rfl | hd
    · exact .inr ⟨rfl, le_rfl⟩
    · exact notAfter_iff.1 ((List.pairwise_cons.1 hl).1 d hd)
  rw [IsBefore]
  omega

theorem filter_eq_nil_of_isBefore (h : ∀ d ∈ l, a.IsBefore d) :
    l.filter (isAt a.row a.col) = [] := by
  refine List.filter_eq_nil_iff.2 fun d hd hplace => ?_
  have hplace := isAt_iff.1 hplace
  have hbefore := h d hd
  rw [IsBefore] at hbefore
  omega

theorem IsStrict.pairwise_row (h : IsStrict l) : l.Pairwise fun a b => a.row ≤ b.row := by
  refine h.imp fun hab => ?_
  rw [IsBefore] at hab
  omega

/-- Exchanging rows and columns names no place twice. -/
theorem IsStrict.transposed (h : IsStrict l) : IsStrict (sorted (l.map transpose)) := by
  have hne : (l.map transpose).Pairwise fun a b => ¬ (a.row = b.row ∧ a.col = b.col) := by
    refine List.pairwise_map.2 (h.imp fun hab => ?_)
    rw [IsBefore] at hab
    simp only [transpose]
    omega
  have hsymm : ∀ {a b : Entry α}, ¬ (a.row = b.row ∧ a.col = b.col) →
      ¬ (b.row = a.row ∧ b.col = a.col) := fun hab hba => hab ⟨hba.1.symm, hba.2.symm⟩
  have hsorted := ((List.mergeSort_perm (l.map transpose) notAfter).pairwise_iff hsymm).2 hne
  refine ((isSorted_sorted (l.map transpose)).and hsorted).imp fun {a b} hab => ?_
  have hle := notAfter_iff.1 hab.1
  have hne := hab.2
  rw [IsBefore]
  omega

theorem mem_transposed : ⟨c, r, v⟩ ∈ sorted (l.map transpose) ↔ ⟨r, c, v⟩ ∈ l := by
  rw [sorted, (List.mergeSort_perm _ _).mem_iff, List.mem_map]
  constructor
  · rintro ⟨e, he, heq⟩
    obtain ⟨rfl, rfl, rfl⟩ := Entry.mk.inj heq
    exact he
  · exact fun he => ⟨_, he, rfl⟩

/-! ### Adding up -/

variable [Scalar α]

/-- Adds up entries for the same place that follow one another, from `a` on. -/
def coalesce (a : Entry α) : List (Entry α) → List (Entry α)
  | [] => [a]
  | b :: l =>
    if a.row = b.row ∧ a.col = b.col then coalesce ⟨a.row, a.col, a.value + b.value⟩ l
    else a :: coalesce b l

/-- One entry for each place that is named, with the sum of its values. -/
def coalesced : List (Entry α) → List (Entry α)
  | [] => []
  | a :: l => coalesce a l

/-- The entries that a matrix keeps. -/
def kept (entries : List (Entry α)) : List (Entry α) :=
  (coalesced (sorted entries)).filter fun e => !(e.value == 0)

/-- Only places of the entries are left. -/
theorem exists_of_mem_coalesce {e : Entry α} (he : e ∈ coalesce a l) :
    ∃ d ∈ a :: l, d.row = e.row ∧ d.col = e.col := by
  induction l generalizing a with
  | nil =>
    obtain rfl := List.mem_singleton.1 he
    exact ⟨e, List.mem_singleton_self e, rfl, rfl⟩
  | cons b l ih =>
    rw [coalesce] at he
    split at he
    · obtain ⟨d, hd, hplace⟩ := ih he
      rcases List.mem_cons.1 hd with rfl | hd
      · exact ⟨a, List.mem_cons_self, hplace⟩
      · exact ⟨d, List.mem_cons_of_mem _ (List.mem_cons_of_mem _ hd), hplace⟩
    · rcases List.mem_cons.1 he with rfl | he
      · exact ⟨e, List.mem_cons_self, rfl, rfl⟩
      · obtain ⟨d, hd, hplace⟩ := ih he
        exact ⟨d, List.mem_cons_of_mem _ hd, hplace⟩

theorem isBefore_of_mem_coalesce (h : ∀ d ∈ b :: l, a.IsBefore d) :
    ∀ e ∈ coalesce b l, a.IsBefore e := by
  intro e he
  obtain ⟨d, hd, hrow, hcol⟩ := exists_of_mem_coalesce he
  simpa only [IsBefore, hrow, hcol] using h d hd

/-- The sum of two entries for one place stands in the order like them. -/
theorem IsSorted.add (h : IsSorted (a :: b :: l)) :
    IsSorted (⟨a.row, a.col, a.value + b.value⟩ :: l) := by
  obtain ⟨ha, hl⟩ := List.pairwise_cons.1 h
  exact List.pairwise_cons.2
    ⟨fun d hd => ha d (List.mem_cons_of_mem _ hd), (List.pairwise_cons.1 hl).2⟩

/-- No place is named twice any more. -/
theorem IsSorted.isStrict_coalesce (h : IsSorted (a :: l)) : IsStrict (coalesce a l) := by
  induction l generalizing a with
  | nil => exact List.pairwise_singleton _ _
  | cons b l ih =>
    rw [coalesce]
    split
    · exact ih h.add
    · rename_i hne
      exact List.pairwise_cons.2
        ⟨isBefore_of_mem_coalesce (h.isBefore hne), ih (List.pairwise_cons.1 h).2⟩

/-- The sums at all places stay. -/
theorem IsSorted.sumAt_coalesce (h : IsSorted (a :: l)) (r c : Nat) :
    sumAt (coalesce a l) r c = sumAt (a :: l) r c := by
  induction l generalizing a with
  | nil => rfl
  | cons b l ih =>
    rw [coalesce]
    split
    · rename_i hsame
      have hb : b.isAt r c = a.isAt r c := by rw [isAt, isAt, hsame.1, hsame.2]
      have hsum : isAt r c ⟨a.row, a.col, a.value + b.value⟩ = a.isAt r c := rfl
      rw [ih h.add, sumAt_cons, sumAt_cons, sumAt_cons, List.filter_cons, hb, hsum]
      cases a.isAt r c <;> rfl
    · rename_i hne
      have hbefore := h.isBefore hne
      rw [sumAt_cons, sumAt_cons, ih (List.pairwise_cons.1 h).2]
      split
      · rename_i hplace
        -- no other value is for the place of the first entry, before and after
        obtain ⟨rfl, rfl⟩ := isAt_iff.1 hplace
        rw [filter_eq_nil_of_isBefore hbefore,
          filter_eq_nil_of_isBefore (isBefore_of_mem_coalesce hbefore)]
      · rfl

theorem IsSorted.isStrict_coalesced (h : IsSorted l) : IsStrict (coalesced l) := by
  cases l with
  | nil => exact .nil
  | cons a l => exact h.isStrict_coalesce

theorem IsSorted.sumAt_coalesced (h : IsSorted l) (r c : Nat) :
    sumAt (coalesced l) r c = sumAt l r c := by
  cases l with
  | nil => rfl
  | cons a l => exact h.sumAt_coalesce r c

/-- Where no place is named twice, an entry has the sum of its place. -/
theorem IsStrict.mem_iff (h : IsStrict l) : ⟨r, c, v⟩ ∈ l ↔ sumAt l r c = some v := by
  induction l with
  | nil => simp [sumAt, sumInOrder]
  | cons e l ih =>
    obtain ⟨he, hl⟩ := List.pairwise_cons.1 h
    rw [List.mem_cons, ih hl, sumAt_cons]
    split
    · rename_i hplace
      obtain ⟨rfl, rfl⟩ := isAt_iff.1 hplace
      have hnil := filter_eq_nil_of_isBefore he
      have hnone : sumAt l e.row e.col = none := by
        rw [sumAt, hnil]
        rfl
      rw [hnone, hnil, List.map_nil, List.foldl_nil, Option.some.injEq]
      obtain ⟨r, c, w⟩ := e
      simp [eq_comm]
    · rename_i hplace
      exact or_iff_right fun heq => hplace (heq ▸ isAt_iff.2 ⟨rfl, rfl⟩)

theorem isStrict_kept (entries : List (Entry α)) : IsStrict (kept entries) :=
  (isSorted_sorted entries).isStrict_coalesced.filter _

/-- The entries that are kept are the sums that are not zero. -/
theorem mem_kept {entries : List (Entry α)} :
    ⟨r, c, v⟩ ∈ kept entries ↔ nonzeroSumAt entries r c = some v := by
  have hsorted := isSorted_sorted entries
  rw [kept, List.mem_filter, hsorted.isStrict_coalesced.mem_iff, hsorted.sumAt_coalesced, sumAt,
    filter_sorted, ← sumAt, nonzeroSumAt, Option.filter_eq_some_iff]

end Entry

namespace PackedLines

variable {numLines i c : Nat} {v : α} {entries : List (Entry α)}

theorem increasing_line (h : Entry.IsStrict entries) (hi : i < numLines) :
    ((ofSorted numLines entries).line i).Increasing := by
  rw [line_ofSorted h.pairwise_row hi]
  refine List.pairwise_map.2 ((h.filter _).imp_of_mem fun ha hb hab => ?_)
  have ha := beq_iff_eq.1 (List.mem_filter.1 ha).2
  have hb := beq_iff_eq.1 (List.mem_filter.1 hb).2
  rw [Entry.IsBefore] at hab
  omega

theorem mem_line (h : Entry.IsStrict entries) (hi : i < numLines) :
    (c, v) ∈ (ofSorted numLines entries).line i ↔ ⟨i, c, v⟩ ∈ entries := by
  rw [line_ofSorted h.pairwise_row hi, List.mem_map]
  constructor
  · rintro ⟨e, he, heq⟩
    obtain ⟨rfl, rfl⟩ := Prod.mk.inj heq
    obtain ⟨hmem, hrow⟩ := List.mem_filter.1 he
    obtain rfl := beq_iff_eq.1 hrow
    exact hmem
  · exact fun he => ⟨_, List.mem_filter.2 ⟨he, beq_self_eq_true i⟩, rfl⟩

end PackedLines

/-! ### The packed matrix -/

/-- A matrix whose rows and columns are both kept in shared arrays. -/
structure PackedMatrix (α : Type) where
  numRows : Nat
  numCols : Nat
  byCol : PackedLines α
  byRow : PackedLines α

namespace PackedMatrix

open PackedLines

variable [Scalar α]

/-- The packed matrix of the sums of entries. -/
def ofEntries (numRows numCols : Nat) (entries : List (Entry α)) : PackedMatrix α where
  numRows := numRows
  numCols := numCols
  byRow := .ofSorted numRows (Entry.kept entries)
  byCol := .ofSorted numCols (Entry.sorted ((Entry.kept entries).map Entry.transpose))

/-- The packed matrix of the sums of entries; the first one outside of the matrix is an error. -/
def ofEntries? (numRows numCols : Nat) (entries : List (Entry α)) :
    Except (Error α) (PackedMatrix α) :=
  match entries.find? fun e => numRows ≤ e.row || numCols ≤ e.col with
  | some e => .error (.entryOutOfRange e.row e.col)
  | none => .ok (ofEntries numRows numCols entries)

/-- The number of entries that are kept. -/
def numElements (p : PackedMatrix α) : Nat :=
  p.byRow.indices.size

/-- The product with a vector, row by row. -/
def activities (p : PackedMatrix α) (x : Array α) : Checked (Array α) :=
  (Array.range p.numRows).mapM fun r => (p.byRow.line r).activity x

/-- The packed matrix holds the lines of a matrix. -/
structure Packs (p : PackedMatrix α) (m : Matrix α) : Prop where
  numRows_eq : p.numRows = m.numRows
  numCols_eq : p.numCols = m.numCols
  line_byRow : ∀ r < m.numRows, p.byRow.line r = m.row r
  line_byCol : ∀ c < m.numCols, p.byCol.line c = m.column c
  numElements_eq : p.numElements = m.numElements
  activities_eq : ∀ x, p.activities x = m.activities x

variable {m : Matrix α} {numRows numCols : Nat} {entries : List (Entry α)}

theorem mem_kept_iff (h : m.IsMadeOf numRows numCols entries) {r c : Nat} {v : α} :
    ⟨r, c, v⟩ ∈ Entry.kept entries ↔ (c, v) ∈ m.row r := by
  rw [Entry.mem_kept, h.mem_row]

theorem line_byRow (h : m.IsMadeOf numRows numCols entries) {r : Nat} (hr : r < numRows) :
    (ofSorted numRows (Entry.kept entries)).line r = m.row r :=
  (increasing_line (Entry.isStrict_kept entries) hr).ext (h.increasing_row r) fun c v => by
    rw [mem_line (Entry.isStrict_kept entries) hr, mem_kept_iff h]

theorem line_byCol (h : m.IsMadeOf numRows numCols entries) {c : Nat} (hc : c < numCols) :
    (ofSorted numCols (Entry.sorted ((Entry.kept entries).map Entry.transpose))).line c =
      m.column c :=
  have hstrict := (Entry.isStrict_kept entries).transposed
  (increasing_line hstrict hc).ext (h.increasing_column c) fun r v => by
    rw [mem_line hstrict hc, Entry.mem_transposed, mem_kept_iff h, h.mem_column]

theorem length_kept (h : m.IsMadeOf numRows numCols entries) :
    (Entry.kept entries).length = m.numElements := by
  have hall : ∀ e ∈ Entry.kept entries, e.row < numRows := fun e he => by
    obtain ⟨hsum, -⟩ := Option.filter_eq_some_iff.1 (Entry.mem_kept.1 he)
    obtain ⟨d, hd, hrow, -⟩ := Entry.exists_of_sumAt hsum
    exact hrow ▸ (h.isInside d hd).1
  rw [m.numElements_eq_sum, h.numRows_eq, ← List.countP_eq_length.2 fun e he =>
    decide_eq_true (hall e he), countP_row_eq_sum]
  refine Finset.sum_congr rfl fun r hr => ?_
  rw [← line_byRow h (Finset.mem_range.1 hr),
    line_ofSorted (Entry.isStrict_kept entries).pairwise_row (Finset.mem_range.1 hr),
    List.length_map]

theorem activities_ofEntries (h : m.IsMadeOf numRows numCols entries) (x : Array α) :
    (ofEntries numRows numCols entries).activities x = m.activities x := by
  have hlines : (List.range numRows).map (ofSorted numRows (Entry.kept entries)).line =
      m.rows.toList := by
    rw [m.toList_rows, h.numRows_eq]
    exact List.map_congr_left fun r hr => line_byRow h (List.mem_range.1 hr)
  rw [activities, Matrix.activities, Array.mapM_eq_mapM_toList, Array.mapM_eq_mapM_toList,
    Array.toList_range, ← hlines, List.mapM_map]
  rfl

/-- The packed matrix of entries holds the lines of the matrix of their sums. -/
theorem packs_ofEntries (h : m.IsMadeOf numRows numCols entries) :
    (ofEntries numRows numCols entries).Packs m where
  numRows_eq := h.numRows_eq.symm
  numCols_eq := h.numCols_eq.symm
  line_byRow _ hr := line_byRow h (hr.trans_eq h.numRows_eq)
  line_byCol _ hc := line_byCol h (hc.trans_eq h.numCols_eq)
  numElements_eq := by
    rw [← length_kept h]
    simp only [numElements, ofEntries, ofSorted, List.size_toArray, List.length_map]
  activities_eq := activities_ofEntries h

end PackedMatrix

/-! ### What entries give -/

namespace Matrix

/-- What entries give: the matrix of their sums, which may be packed, or an error that names the
first entry outside of the matrix. -/
def IsResultOf [Scalar α] (numRows numCols : Nat) (entries : List (Entry α)) :
    Except (Error α) (Matrix α) → Except (Error α) (PackedMatrix α) → Prop
  | .ok m, q => m.IsMadeOf numRows numCols entries ∧ ∃ p, q = .ok p ∧ p.Packs m
  | .error e, q => (∃ before x after, entries = before ++ x :: after ∧
      (∀ y ∈ before, y.IsInside numRows numCols) ∧ ¬ x.IsInside numRows numCols ∧
      e = .entryOutOfRange x.row x.col) ∧ q = .error e

/-- Products with the matrix of entries are those of the dense matrix, row by row or column by
column, and the order of the entries makes no difference. -/
structure Multiplies (m : Matrix Exact) (numRows numCols : Nat) (entries : List (Entry Exact)) :
    Prop where
  dense : ∀ x : Array Exact, numCols ≤ x.size →
    (∀ c < numCols, Scalar.isFinite (x.getD c 0) = true) →
    m.activities x = .ok (denseProduct numRows numCols entries x)
  byColumns : ∀ x : Array Exact, numCols ≤ x.size →
    m.activities x = .ok (m.activitiesByColumns x)
  ofPerm : ∀ entries', entries.Perm entries' → ofEntries? numRows numCols entries' = .ok m

variable {numRows numCols : Nat}

theorem isOutside_iff {e : Entry α} :
    (decide (numRows ≤ e.row) || decide (numCols ≤ e.col)) = true ↔
      ¬ e.IsInside numRows numCols := by
  rw [Bool.or_eq_true, decide_eq_true_iff, decide_eq_true_iff, Entry.IsInside]
  omega

theorem ofEntries?_of_isInside [Scalar α] {entries : List (Entry α)}
    (h : ∀ e ∈ entries, e.IsInside numRows numCols) :
    ofEntries? numRows numCols entries = .ok (ofEntries numRows numCols entries) := by
  have hnone : entries.find? (fun e => numRows ≤ e.row || numCols ≤ e.col) = none :=
    List.find?_eq_none.2 fun e he hout => isOutside_iff.1 hout (h e he)
  rw [ofEntries?, hnone]

theorem isResultOf_ofEntries? [Scalar α] (numRows numCols : Nat) (entries : List (Entry α)) :
    IsResultOf numRows numCols entries (ofEntries? numRows numCols entries)
      (PackedMatrix.ofEntries? numRows numCols entries) := by
  rw [ofEntries?, PackedMatrix.ofEntries?]
  cases hfind : entries.find? fun e => numRows ≤ e.row || numCols ≤ e.col with
  | none =>
    have hin : ∀ e ∈ entries, e.IsInside numRows numCols := fun e he => by
      by_contra hout
      exact List.find?_eq_none.1 hfind e he (isOutside_iff.2 hout)
    have hmade := isMadeOf_ofEntries hin
    exact ⟨hmade, _, rfl, PackedMatrix.packs_ofEntries hmade⟩
  | some x =>
    obtain ⟨hx, before, after, heq, hbefore⟩ := List.find?_eq_some_iff_append.1 hfind
    refine ⟨⟨before, x, after, heq, fun y hy => ?_, isOutside_iff.1 hx, rfl⟩, rfl⟩
    by_contra hout
    have hfalse := hbefore y hy
    rw [isOutside_iff.2 hout] at hfalse
    contradiction

theorem multiplies_of_isMadeOf {m : Matrix Exact} {entries : List (Entry Exact)}
    (h : m.IsMadeOf numRows numCols entries) : m.Multiplies numRows numCols entries where
  dense _ hsize hx := h.activities_eq_dense hsize hx
  byColumns _ hsize := activities_eq_byColumns (h.numCols_eq.trans_le hsize)
  ofPerm entries' hperm := by
    have hin : ∀ e ∈ entries', e.IsInside numRows numCols :=
      fun e he => h.isInside e (hperm.mem_iff.2 he)
    rw [ofEntries?_of_isInside hin,
      h.unique (isMadeOf_ofEntries hin) fun r c => sumAt_of_perm hperm r c]

/-- Entries give the matrix of their sums, by rows and by columns, and an error if one of them is
outside of it. Over exact numbers products with it are those of the dense matrix. -/
theorem representsEntries :
    (∀ {α : Type} [Scalar α] (numRows numCols : Nat) (entries : List (Entry α)),
      IsResultOf numRows numCols entries (ofEntries? numRows numCols entries)
        (PackedMatrix.ofEntries? numRows numCols entries)) ∧
    ∀ (numRows numCols : Nat) (entries : List (Entry Exact)) (m : Matrix Exact),
      ofEntries? numRows numCols entries = .ok m → m.Multiplies numRows numCols entries := by
  refine ⟨fun numRows numCols entries => isResultOf_ofEntries? numRows numCols entries,
    fun numRows numCols entries m hm => ?_⟩
  have hresult := isResultOf_ofEntries? numRows numCols entries
  rw [hm] at hresult
  exact multiplies_of_isMadeOf hresult.1

/-- Entries that name two places twice and cancel out at one of them; the last row is empty. -/
def repeatedEntries : List (Entry Exact) :=
  [⟨1, 2, .finite 4⟩, ⟨0, 0, .finite 1⟩, ⟨1, 1, .finite 3⟩, ⟨0, 0, .finite (-1)⟩, ⟨0, 2, .finite 2⟩,
    ⟨1, 2, .finite 1⟩]

theorem representsEntries_repeated :
    ofEntries? 3 3 repeatedEntries = .ok (ofEntries 3 3 repeatedEntries) ∧
      (ofEntries 3 3 repeatedEntries).row 0 = [(2, .finite 2)] ∧
      (ofEntries 3 3 repeatedEntries).row 1 = [(1, .finite 3), (2, .finite 5)] ∧
      (ofEntries 3 3 repeatedEntries).Multiplies 3 3 repeatedEntries := by
  have hmade : ofEntries? 3 3 repeatedEntries = .ok (ofEntries 3 3 repeatedEntries) := rfl
  exact ⟨hmade, by decide +kernel, by decide +kernel,
    representsEntries.2 3 3 repeatedEntries _ hmade⟩

end Matrix

end PrimalHeuristics
