import PrimalHeuristics.Heuristic
import PrimalHeuristics.Proofs.Binary64.Sums
import PrimalHeuristics.Proofs.Settings.Text

/-!
# Statements that replay settings

Statements are made by comparing fields as they are written, and settings by comparing their values.
For finite numbers both come to the same. So the statements are exactly those that are needed: put
into the default fields, they give the given ones, and no field has one without need.

* `Statement.overlay`: fields with statements put into them;
* `Statement.IsExact`: statements that lead from default fields to given ones, and do nothing else;
* `Statement.differences_isExact`: for lists of fields with the same names;
* `Statement.differences_append`: the statements of two lists, one after the other;
* `Settings.replay_isExact`: for settings, and for a rounding heuristic with its weights.
-/

namespace PrimalHeuristics

/-! ### Fields with statements put into them -/

namespace Statement

variable {α : Type}

/-- Sets a field, in its place if there is one of that name, or else at the end. -/
def put (s : Statement α) : List (Statement α) → List (Statement α)
  | [] => [s]
  | t :: l => if t.field = s.field then s :: l else t :: put s l

/-- Fields with statements put into them, one after another. -/
def overlay (l changes : List (Statement α)) : List (Statement α) :=
  changes.foldl (fun l s => s.put l) l

/-- The names of fields, in order. -/
def names (l : List (Statement α)) : List String :=
  l.map (·.field)

theorem names_append (l m : List (Statement α)) : names (l ++ m) = names l ++ names m :=
  List.map_append

theorem field_mem_names {s : Statement α} {l : List (Statement α)} (h : s ∈ l) :
    s.field ∈ names l :=
  List.mem_map_of_mem h

/-- Statements for other fields leave the first one as it is. -/
theorem overlay_cons {s : Statement α} {changes : List (Statement α)}
    (h : s.field ∉ names changes) (l : List (Statement α)) :
    overlay (s :: l) changes = s :: overlay l changes := by
  induction changes generalizing l with
  | nil => rfl
  | cons t changes ih =>
    obtain ⟨hne, hrest⟩ := not_or.1 (mt List.mem_cons.2 h)
    have hput : t.put (s :: l) = s :: t.put l := if_neg hne
    show overlay (t.put (s :: l)) changes = s :: overlay (t.put l) changes
    rw [hput, ih hrest]

variable [Scalar α] {s t : Statement α} {current defaults : List (Statement α)}

theorem beq_iff : (s == t) = true ↔ s.field = t.field ∧ (s.value == t.value) = true := by
  show (s.field == t.field && s.value == t.value) = true ↔ _
  rw [Bool.and_eq_true, beq_iff_eq]

theorem mk_beq (field : String) (v w : FieldValue α) :
    ((⟨field, v⟩ : Statement α) == ⟨field, w⟩) = (v == w) := by
  rw [Bool.eq_iff_iff, beq_iff]
  exact ⟨And.right, fun h => ⟨rfl, h⟩⟩

theorem append_beq_append {current' defaults' : List (Statement α)}
    (h : current.length = defaults.length) :
    (current ++ current' == defaults ++ defaults') =
      (current == defaults && current' == defaults') := by
  induction current generalizing defaults with
  | nil =>
    obtain rfl : defaults = [] := List.length_eq_zero_iff.1 h.symm
    rfl
  | cons s current ih =>
    cases defaults with
    | nil => cases h
    | cons t defaults =>
      rw [List.cons_append, List.cons_append, List.cons_beq_cons, List.cons_beq_cons,
        ih (Nat.succ.inj h), Bool.and_assoc]

/-- A statement is not among those for other fields. -/
theorem contains_eq_false (h : s.field ∉ names defaults) : defaults.contains s = false := by
  rw [Bool.eq_false_iff, Ne, List.contains_eq_any_beq, List.any_eq_true]
  rintro ⟨t, ht, hst⟩
  rw [(beq_iff.1 hst).1] at h
  exact h (field_mem_names ht)

/-! ### Differences -/

theorem names_differences_sublist (current defaults : List (Statement α)) :
    (names (differences current defaults)).Sublist (names current) :=
  List.filter_sublist.map _

/-- Fields of other names make no difference. -/
theorem differences_congr {l : List (Statement α)}
    (h : ∀ s ∈ current, defaults.contains s = l.contains s) :
    differences current defaults = differences current l :=
  List.filter_congr fun s hs => by rw [h s hs]

/-- If two lists have no names in common, the statements for both are those for the first, and then
those for the second. -/
theorem differences_append {current' defaults' : List (Statement α)}
    (h : ∀ s ∈ current, s.field ∉ names defaults') (h' : ∀ s ∈ current', s.field ∉ names defaults) :
    differences (current ++ current') (defaults ++ defaults') =
      differences current defaults ++ differences current' defaults' := by
  have happend : differences (current ++ current') (defaults ++ defaults') =
      differences current (defaults ++ defaults') ++
        differences current' (defaults ++ defaults') := List.filter_append _ _
  rw [happend]
  congr 1
  · refine differences_congr fun s hs => ?_
    rw [List.contains_append, contains_eq_false (h s hs), Bool.or_false]
  · refine differences_congr fun s hs => ?_
    rw [List.contains_append, contains_eq_false (h' s hs), Bool.false_or]

/-- The first fields of two lists make a difference or not, and the others do not depend on them. -/
theorem differences_cons (hfield : s.field = t.field) (hs : s.field ∉ names current)
    (ht : t.field ∉ names defaults) : differences (s :: current) (t :: defaults) =
      (if (s.value == t.value) = true then [] else [s]) ++ differences current defaults := by
  have happend : differences ([s] ++ current) ([t] ++ defaults) =
      differences [s] [t] ++ differences current defaults := by
    apply differences_append
    · intro u hu
      rw [List.mem_singleton.1 hu, hfield]
      exact ht
    · intro u hu hut
      rw [show names [t] = [t.field] from rfl, List.mem_singleton, ← hfield] at hut
      exact hs (hut ▸ field_mem_names hu)
  have hone : differences [s] [t] = if (s.value == t.value) = true then [] else [s] := by
    unfold differences
    rw [List.filter_singleton, List.contains_eq_any_beq]
    by_cases hvalue : (s.value == t.value) = true
    · have hst : (s == t) = true := beq_iff.2 ⟨hfield, hvalue⟩
      simp [hst, hvalue]
    · have hst : ¬ (s == t) = true := fun h => hvalue (beq_iff.1 h).2
      simp [hst, hvalue]
  rw [← hone]
  exact happend

/-! ### Exact statements -/

/-- Statements that lead from default fields to given ones, and that are needed for it: put into the
default fields they give the given ones; they are about different fields, in the order of these; and
there is one for a field exactly if its values differ. There is none exactly if all is the same. -/
structure IsExact (changes current defaults : List (Statement α)) (same : Bool) : Prop where
  complete : (current == overlay defaults changes) = true
  ordered : (names changes).Sublist (names current)
  distinct : (names changes).Nodup
  minimal : ∀ s ∈ current, ∀ t ∈ defaults, s.field = t.field →
    (s.field ∈ names changes ↔ (s.value == t.value) = false)
  nil_iff : changes = [] ↔ same = true

/-- Only the default field of the same name can be equal. -/
theorem contains_eq (hnodup : (names defaults).Nodup) (ht : t ∈ defaults) (h : s.field = t.field) :
    defaults.contains s = (s.value == t.value) := by
  rw [Bool.eq_iff_iff, List.contains_eq_any_beq, List.any_eq_true]
  constructor
  · rintro ⟨u, hu, hsu⟩
    obtain ⟨hfield, hvalue⟩ := beq_iff.1 hsu
    obtain rfl := List.inj_on_of_nodup_map hnodup hu ht (hfield.symm.trans h)
    exact hvalue
  · intro hvalue
    exact ⟨t, ht, beq_iff.2 ⟨h, hvalue⟩⟩

theorem mem_names_differences_iff (hcurrent : (names current).Nodup)
    (hdefaults : (names defaults).Nodup) (hs : s ∈ current) (ht : t ∈ defaults)
    (h : s.field = t.field) :
    s.field ∈ names (differences current defaults) ↔ (s.value == t.value) = false := by
  rw [← contains_eq hdefaults ht h]
  constructor
  · intro hmem
    obtain ⟨u, hu, hfield⟩ := List.mem_map.1 hmem
    obtain ⟨hu, hdifferent⟩ := List.mem_filter.1 hu
    obtain rfl := List.inj_on_of_nodup_map hcurrent hu hs hfield
    simpa using hdifferent
  · intro hdifferent
    exact field_mem_names (List.mem_filter.2 ⟨hs, by rw [hdifferent]; rfl⟩)

/-- The statements for two lists with the same names, put into the second, give the first. -/
theorem beq_overlay_differences (hnames : names current = names defaults)
    (hnodup : (names current).Nodup) (hrefl : ∀ s ∈ current, (s.value == s.value) = true) :
    (current == overlay defaults (differences current defaults)) = true := by
  induction current generalizing defaults with
  | nil =>
    obtain rfl : defaults = [] := List.map_eq_nil_iff.1 hnames.symm
    rfl
  | cons s current ih =>
    cases defaults with
    | nil => cases hnames
    | cons t defaults =>
      obtain ⟨hfield, hrest⟩ : s.field = t.field ∧ names current = names defaults :=
        List.cons.inj hnames
      obtain ⟨hs, hnodup⟩ := List.nodup_cons.1 hnodup
      obtain ⟨hvalue, hrefl⟩ := List.forall_mem_cons.1 hrefl
      have ih := ih hrest hnodup hrefl
      have hs' : s.field ∉ names (differences current defaults) :=
        fun h => hs ((names_differences_sublist current defaults).subset h)
      rw [differences_cons hfield hs (by rwa [← hfield, ← hrest])]
      split
      · rename_i hequal
        rw [List.nil_append, overlay_cons (hfield ▸ hs'), List.cons_beq_cons, Bool.and_eq_true]
        exact ⟨beq_iff.2 ⟨hfield, hequal⟩, ih⟩
      · have hput : overlay (t :: defaults) ([s] ++ differences current defaults) =
            overlay (s :: defaults) (differences current defaults) := by
          show overlay (s.put (t :: defaults)) _ = _
          rw [put, if_pos hfield.symm]
          rfl
        rw [hput, overlay_cons hs', List.cons_beq_cons, Bool.and_eq_true]
        exact ⟨beq_iff.2 ⟨rfl, hvalue⟩, ih⟩

theorem differences_eq_nil_iff (hnames : names current = names defaults)
    (hnodup : (names current).Nodup) :
    differences current defaults = [] ↔ (current == defaults) = true := by
  induction current generalizing defaults with
  | nil =>
    obtain rfl : defaults = [] := List.map_eq_nil_iff.1 hnames.symm
    exact iff_of_true rfl rfl
  | cons s current ih =>
    cases defaults with
    | nil => cases hnames
    | cons t defaults =>
      obtain ⟨hfield, hrest⟩ : s.field = t.field ∧ names current = names defaults :=
        List.cons.inj hnames
      obtain ⟨hs, hnodup⟩ := List.nodup_cons.1 hnodup
      rw [differences_cons hfield hs (by rwa [← hfield, ← hrest]), List.append_eq_nil_iff,
        ih hrest hnodup, List.cons_beq_cons, Bool.and_eq_true, beq_iff]
      simp [hfield]

/-- The statements for two lists with the same names are exact. -/
theorem differences_isExact (hnames : names current = names defaults)
    (hnodup : (names current).Nodup) (hrefl : ∀ s ∈ current, (s.value == s.value) = true) :
    IsExact (differences current defaults) current defaults (current == defaults) where
  complete := beq_overlay_differences hnames hnodup hrefl
  ordered := names_differences_sublist current defaults
  distinct := hnodup.sublist (names_differences_sublist current defaults)
  minimal _ hs _ ht h := mem_names_differences_iff hnodup (hnames ▸ hnodup) hs ht h
  nil_iff := differences_eq_nil_iff hnames hnodup

end Statement

/-! ### Values of fields -/

namespace FieldValue

theorem text_beq (a b : String) : ((text a : FieldValue Binary64) == text b) = (a == b) := rfl

theorem flag_beq (a b : Bool) : ((flag a : FieldValue Binary64) == flag b) = (a == b) := rfl

theorem integer_beq (m n : Int) : ((integer m : FieldValue Binary64) == integer n) = (m == n) := rfl

theorem natCast_beq (m n : Nat) : ((m : Int) == n) = (m == n) := by
  rw [Bool.eq_iff_iff, beq_iff_eq, beq_iff_eq, Int.natCast_inj]

/-- Finite numbers are compared as they are written. -/
theorem ofReal_beq {x y : Binary64} (hx : x.isFinite = true) (hy : y.isFinite = true) :
    (ofReal x == ofReal y) = (x == y) := by
  have hx : Scalar.isFinite x = true := hx
  have hy : Scalar.isFinite y = true := hy
  unfold ofReal
  rw [if_pos hx, if_pos hy]
  rfl

/-- What is written for a number is the same as itself, even if the number is not. -/
theorem ofReal_beq_self (x : Binary64) : (ofReal x == ofReal x) = true := by
  by_cases hx : x.isFinite = true
  · rw [ofReal_beq hx hx]
    have hnumber := Binary64.isNaN_of_isFinite hx
    exact (Binary64.eq_iff_place hnumber hnumber).2 rfl
  · have hx : ¬ Scalar.isFinite x = true := hx
    unfold ofReal
    rw [if_neg hx]
    rfl

end FieldValue

theorem Trigger.word_beq (t u : Trigger) : (t.word == u.word) = (t == u) := by
  cases t <;> cases u <;> decide

theorem SubSolver.word_beq (k l : SubSolver) : (k.word == l.word) = (k == l) := by
  cases k
  cases l
  decide

/-! ### Settings -/

namespace Settings

variable {s d : Settings Binary64}

/-- The numbers among the fields are finite. -/
def IsFinite (s : Settings Binary64) : Prop :=
  ∀ x ∈ s.reals, x.isFinite = true

instance (s : Settings Binary64) : Decidable s.IsFinite :=
  inferInstanceAs (Decidable (∀ _ ∈ _, _))

theorem isFinite_iff : s.IsFinite ↔ s.fractionSmall.isFinite = true ∧
    s.decayFactor.isFinite = true ∧ s.farThreshold.isFinite = true := by
  simp [IsFinite, reals]

theorem beq_eq (s d : Settings Binary64) : (s == d) =
    (s.name == d.name && (s.trigger == d.trigger && (s.trustOddProblems == d.trustOddProblems &&
    (s.numberNodes == d.numberNodes && (s.feasibilityPumpOptions == d.feasibilityPumpOptions &&
    (s.fractionSmall == d.fractionSmall && (s.howOften == d.howOften &&
    (s.decayFactor == d.decayFactor && (s.seed == d.seed && (s.farThreshold == d.farThreshold &&
    s.subSolver == d.subSolver)))))))))) := rfl

/-- Finite settings are the same exactly if their fields are. -/
theorem fields_beq (hs : s.IsFinite) (hd : d.IsFinite) : (s.fields == d.fields) = (s == d) := by
  obtain ⟨hfraction, hdecay, hfar⟩ := isFinite_iff.1 hs
  obtain ⟨hfraction', hdecay', hfar'⟩ := isFinite_iff.1 hd
  have hword (m n : UInt64) : (m.toNat == n.toNat) = (m == n) := by
    rw [Bool.eq_iff_iff, beq_iff_eq, beq_iff_eq, UInt64.toNat_inj]
  have hhalf (m n : UInt32) : (m.toNat == n.toNat) = (m == n) := by
    rw [Bool.eq_iff_iff, beq_iff_eq, beq_iff_eq, UInt32.toNat_inj]
  have hsigned (m n : Int32) : (m.toInt == n.toInt) = (m == n) := by
    rw [Bool.eq_iff_iff, beq_iff_eq, beq_iff_eq, Int32.toInt_inj]
  rw [beq_eq]
  simp only [fields, List.cons_beq_cons, List.nil_beq_eq, List.isEmpty_nil, Bool.and_true,
    Statement.mk_beq, FieldValue.text_beq, FieldValue.flag_beq, FieldValue.integer_beq,
    FieldValue.natCast_beq, hword, hhalf, hsigned, Trigger.word_beq, SubSolver.word_beq,
    FieldValue.ofReal_beq hfraction hfraction', FieldValue.ofReal_beq hdecay hdecay',
    FieldValue.ofReal_beq hfar hfar']

theorem value_beq_self (s : Settings Binary64) : ∀ e ∈ s.fields, (e.value == e.value) = true := by
  simp only [fields, List.forall_mem_cons, FieldValue.text_beq, FieldValue.flag_beq,
    FieldValue.integer_beq, beq_self_eq_true, FieldValue.ofReal_beq_self, List.not_mem_nil,
    false_imp_iff, implies_true, and_self]

theorem names_fields (s : Settings Binary64) : Statement.names s.fields = fieldNames := by
  simp only [fieldNames, Statement.names, fields, List.map_cons, List.map_nil]

theorem length_fields (s : Settings Binary64) : s.fields.length = 11 := by
  unfold fields
  rfl

theorem field_mem_fieldNames {e : Statement Binary64} (h : e ∈ s.fields) : e.field ∈ fieldNames :=
  s.names_fields ▸ Statement.field_mem_names h

theorem nodup_fieldNames : fieldNames.Nodup := by
  decide +kernel

end Settings

/-! ### Weights -/

namespace Weights

/-- The weights with their names, in order. -/
def fields (w : Weights Binary64) : List (Statement Binary64) :=
  [⟨"lock_jitter", .ofReal w.lockJitter⟩, ⟨"objective_weight", .ofReal w.objectiveWeight⟩]

/-- The names of the weights. -/
def fieldNames : List String :=
  ["lock_jitter", "objective_weight"]

theorem names_fields (w : Weights Binary64) : Statement.names w.fields = fieldNames := by
  simp only [fieldNames, Statement.names, fields, List.map_cons, List.map_nil]

/-- The weights are equal as numbers. -/
def same (w v : Weights Binary64) : Bool :=
  w.lockJitter == v.lockJitter && w.objectiveWeight == v.objectiveWeight

/-- Both weights are finite. -/
def IsFinite (w : Weights Binary64) : Prop :=
  w.lockJitter.isFinite = true ∧ w.objectiveWeight.isFinite = true

instance (w : Weights Binary64) : Decidable w.IsFinite :=
  inferInstanceAs (Decidable (_ ∧ _))

variable {w v : Weights Binary64}

theorem fields_beq (hw : w.IsFinite) (hv : v.IsFinite) : (w.fields == v.fields) = w.same v := by
  unfold fields same
  rw [List.cons_beq_cons, List.cons_beq_cons, Statement.mk_beq, Statement.mk_beq,
    FieldValue.ofReal_beq hw.1 hv.1, FieldValue.ofReal_beq hw.2 hv.2]
  exact congrArg _ (Bool.and_true _)

theorem value_beq_self (w : Weights Binary64) : ∀ e ∈ w.fields, (e.value == e.value) = true := by
  simp [fields, FieldValue.ofReal_beq_self]

end Weights

/-! ### Heuristics -/

section Replay

open Statement

variable {h : Heuristic Binary64} {r : Rounding Binary64}

/-- No weight is a field of settings. -/
theorem Weights.not_mem_fieldNames : ∀ name ∈ Settings.fieldNames, name ∉ fieldNames := by
  decide +kernel

/-- The statements of a rounding heuristic are those for its fields and its weights together. -/
theorem Heuristic.replay_eq (hkind : h.kind = .rounding r) : h.replay =
    differences (h.core.settings.fields ++ r.weights.fields)
      (h.defaultSettings.fields ++ Weights.standard.fields) := by
  rw [differences_append]
  · unfold Heuristic.replay
    rw [hkind]
    rfl
  · intro s hs
    rw [Weights.names_fields]
    exact Weights.not_mem_fieldNames _ (Settings.field_mem_fieldNames hs)
  · intro s hs hsettings
    rw [Settings.names_fields] at hsettings
    exact Weights.not_mem_fieldNames _ hsettings (r.weights.names_fields ▸ field_mem_names hs)

/-- The statements of a rounding heuristic are exact for settings and weights together. -/
theorem Heuristic.isExact_replay (hkind : h.kind = .rounding r) (hs : h.core.settings.IsFinite)
    (hr : r.weights.IsFinite) :
    IsExact h.replay (h.core.settings.fields ++ r.weights.fields)
      (h.defaultSettings.fields ++ Weights.standard.fields)
      (h.core.settings == h.defaultSettings && r.weights.same .standard) := by
  have hdefault : h.defaultSettings.IsFinite := by
    have hname : h.kind.name = "Rounding" := by
      rw [hkind]
      rfl
    unfold Heuristic.defaultSettings
    rw [hname]
    decide +kernel
  have hstandard : (Weights.standard : Weights Binary64).IsFinite := by
    decide +kernel
  have hlength : h.core.settings.fields.length = h.defaultSettings.fields.length := by
    rw [Settings.length_fields, Settings.length_fields]
  rw [replay_eq hkind, ← Settings.fields_beq hs hdefault, ← Weights.fields_beq hr hstandard,
    ← append_beq_append hlength]
  apply differences_isExact
  · simp only [names_append, Settings.names_fields, Weights.names_fields]
  · simp only [names_append, Settings.names_fields, Weights.names_fields]
    decide +kernel
  · intro e he
    rcases List.mem_append.1 he with he | he
    · exact h.core.settings.value_beq_self e he
    · exact r.weights.value_beq_self e he

/-- The statements of finite settings are exact, and for a rounding heuristic with finite weights so
are those for settings and weights together. -/
theorem Settings.replay_isExact {s d : Settings Binary64} (hs : s.IsFinite) (hd : d.IsFinite) :
    IsExact (s.replay d) s.fields d.fields (s == d) ∧
      ∀ (h : Heuristic Binary64) (r : Rounding Binary64), h.core.settings = s →
        h.kind = .rounding r → r.weights.IsFinite →
          IsExact h.replay (s.fields ++ r.weights.fields)
            (h.defaultSettings.fields ++ Weights.standard.fields)
            (s == h.defaultSettings && r.weights.same .standard) := by
  constructor
  · rw [← fields_beq hs hd]
    exact differences_isExact (s.names_fields.trans d.names_fields.symm)
      (s.names_fields ▸ nodup_fieldNames) s.value_beq_self
  · rintro h r rfl hkind hr
    exact Heuristic.isExact_replay hkind hs hr

/-- Standard settings with more nodes, and with a growth that is a zero of the other sign. -/
def Settings.retuned : Settings Binary64 :=
  { Settings.named "Rounding" with numberNodes := 500, decayFactor := -0 }

/-- A rounding heuristic with these settings, and with half the usual jitter. -/
def Rounding.retuned : Rounding Binary64 :=
  { (Rounding.fresh : Rounding Binary64) with
    weights := { (Weights.standard : Weights Binary64) with lockJitter := Scalar.decimal 25 2 } }

/-- The zero of the other sign needs no statement. -/
theorem Settings.replay_isExact_retuned :
    retuned.IsFinite ∧ (standard : Settings Binary64).IsFinite ∧ Rounding.retuned.weights.IsFinite ∧
      names (Heuristic.replay ⟨.ofSettings retuned, .rounding .retuned⟩) =
        ["number_nodes", "lock_jitter"] ∧
      IsExact (retuned.replay standard) retuned.fields standard.fields (retuned == standard) ∧
      IsExact (Heuristic.replay ⟨.ofSettings retuned, .rounding .retuned⟩)
        (retuned.fields ++ Rounding.retuned.weights.fields)
        ((named "Rounding").fields ++ Weights.standard.fields)
        (retuned == named "Rounding" && Rounding.retuned.weights.same .standard) := by
  have hs : retuned.IsFinite := by decide +kernel
  have hd : (standard : Settings Binary64).IsFinite := by decide +kernel
  have hr : Rounding.retuned.weights.IsFinite := by decide +kernel
  obtain ⟨hsettings, hrounding⟩ := replay_isExact hs hd
  exact ⟨hs, hd, hr, by decide +kernel, hsettings,
    hrounding ⟨.ofSettings retuned, .rounding .retuned⟩ .retuned rfl rfl hr⟩

end Replay

end PrimalHeuristics
