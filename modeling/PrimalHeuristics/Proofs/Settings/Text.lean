import PrimalHeuristics.Proofs.Binary64.Order
import PrimalHeuristics.Proofs.Json.Reader
import PrimalHeuristics.Settings.Text

/-!
# Settings read back

The text of settings gives the settings again, field by field, unless one of the numbers is infinite:
an infinite number is written like a missing one, and no number is read there.

* `FieldValue.reads_toJson`: the value of a field, as it is written;
* `Settings.setFields?_fields`: the fields of settings, put into standard ones;
* `Settings.parse_toText`: the text of settings.
-/

namespace PrimalHeuristics

/-! ### Values of fields -/

namespace FieldValue

/-- The text of a number is a numeral that has this value. -/
def ReadsBack (x : Binary64) : Prop :=
  (Numeral.ofChars? (format.text x).toList).bind Numeral.value? = some (.real x)

instance (x : Binary64) : Decidable (ReadsBack x) :=
  inferInstanceAs (Decidable (_ = _))

/-- The value that the text of a field holds. -/
def toJson : FieldValue Binary64 → Json
  | text s => .string (some s)
  | flag b => .bool b
  | integer n => .number (.ofInt n)
  | real x => .number ((Numeral.ofChars? (format.text x).toList).getD (.ofInt 0))
  | missing => .null

theorem ReadsBack.exists_numeral {x : Binary64} (h : ReadsBack x) : ∃ n,
    Numeral.ofChars? (format.text x).toList = some n ∧ (real x).toJson = .number n ∧
      n.value? = some (.real x) := by
  obtain ⟨n, hn, hvalue⟩ := Option.bind_eq_some_iff.1 h
  exact ⟨n, hn, by rw [toJson, hn, Option.getD_some], hvalue⟩

/-- What is written for a field is read as its value. -/
theorem reads_toJson {v : FieldValue Binary64} (h : ∀ x, v = real x → ReadsBack x) :
    Json.Reads v.toText.toList v.toJson := by
  cases v with
  | text s => exact Json.reads_quote s
  | flag b => exact Json.reads_bool b
  | integer n => exact Json.reads_number (Numeral.ofChars?_toString n)
  | real x =>
    obtain ⟨n, hn, hjson, -⟩ := (h x rfl).exists_numeral
    rw [hjson]
    exact Json.reads_number hn
  | missing => exact Json.reads_null

theorem toText?_text (s : String) : (text s).toJson.toText? = some s := rfl

theorem toWordIn?_text (s : String) : (text s).toJson.toWordIn? = some s := rfl

theorem toFlag?_flag (b : Bool) : (flag b).toJson.toFlag? = some b := rfl

theorem toWord?_integer (n : UInt64) : (integer n.toNat).toJson.toWord? = some n := by
  have hvalue : (integer n.toNat).toJson.toValue? = some (.natural (UInt64.ofNat n.toNat)) :=
    Numeral.value?_natural n.toNat_lt
  rw [Json.toWord?, hvalue, UInt64.ofNat_toNat]

theorem toHalfWord?_integer (n : UInt32) : (integer n.toNat).toJson.toHalfWord? = some n := by
  have hlt : n.toNat < UInt64.size := n.toNat_lt.trans (by decide)
  have hvalue : (integer n.toNat).toJson.toValue? = some (.natural (UInt64.ofNat n.toNat)) :=
    Numeral.value?_natural hlt
  rw [Json.toHalfWord?, hvalue]
  dsimp only
  rw [UInt64.toNat_ofNat_of_lt' hlt, if_pos n.toNat_lt, UInt64.toUInt32_ofNat', UInt32.ofNat_toNat]

theorem toInt?_integer (n : Int32) : (integer n.toInt).toJson.toInt? = some n := by
  have hmax := n.toInt_lt
  have hmin := n.le_toInt
  have hn := Int32.ofInt_toInt n
  rcases lt_or_ge n.toInt 0 with hneg | hnonneg
  · have hmin' : -2 ^ 63 ≤ n.toInt := by omega
    have hvalue : (integer n.toInt).toJson.toValue? = some (.negative (Int64.ofInt n.toInt)) :=
      Numeral.value?_negative hneg hmin'
    have hint : (Int64.ofInt n.toInt).toInt = n.toInt := Int64.toInt_ofInt_of_le hmin' (by omega)
    rw [Json.toInt?, hvalue]
    dsimp only
    rw [hint, if_pos n.minValue_le_toInt, hn]
  · obtain ⟨k, hk⟩ := Int.eq_ofNat_of_zero_le hnonneg
    rw [hk] at hmax hn ⊢
    have hlt : k < UInt64.size := by
      simp only [UInt64.size]
      omega
    have hvalue : (integer (k : Int)).toJson.toValue? = some (.natural (UInt64.ofNat k)) :=
      Numeral.value?_natural hlt
    have hhalf : k < Nat.pow 2 31 := by
      have hpow : Nat.pow 2 31 = 2 ^ 31 := rfl
      omega
    rw [Json.toInt?, hvalue]
    dsimp only
    rw [UInt64.toNat_ofNat_of_lt' hlt, if_pos hhalf, ← Int32.ofInt_eq_ofNat, hn]

theorem ofReal_eq_real {x y : Binary64} (h : ofReal x = real y) :
    Scalar.isFinite x = true ∧ x = y := by
  unfold ofReal at h
  split at h
  · rename_i hfinite
    cases h
    exact ⟨hfinite, rfl⟩
  · cases h

/-- An infinite number leaves nothing to read. -/
theorem toReal?_ofReal {x : Binary64} (h : Scalar.isFinite x = true → ReadsBack x) :
    (ofReal x).toJson.toReal? = if Scalar.isFinite x then some x else none := by
  unfold ofReal
  split
  · rename_i hfinite
    obtain ⟨n, -, hjson, hvalue⟩ := (h hfinite).exists_numeral
    rw [hjson, Json.toReal?, Json.toValue?, hvalue]
  · rfl

end FieldValue

theorem Trigger.ofWord?_word (t : Trigger) : ofWord? t.word = some t := by
  cases t <;> rfl

theorem SubSolver.ofWord?_word (t : SubSolver) : ofWord? t.word = some t := by
  cases t
  rfl

/-! ### Fields -/

namespace Settings

variable {s : Settings Binary64}

/-- The numbers among the fields. -/
def reals (s : Settings Binary64) : List Binary64 :=
  [s.fractionSmall, s.decayFactor, s.farThreshold]

/-- The finite numbers of settings are written as texts that read back. -/
def RealsReadBack (s : Settings Binary64) : Prop :=
  ∀ x ∈ s.reals, Scalar.isFinite x = true → FieldValue.ReadsBack x

instance (s : Settings Binary64) : Decidable s.RealsReadBack :=
  inferInstanceAs (Decidable (∀ _ ∈ _, _))

/-- The fields of settings, put into standard ones. -/
theorem setFields?_fields (hreals : s.RealsReadBack) :
    standard.setFields? (s.fields.map fun e => (e.field, e.value.toJson)) =
      if s.reals.all Scalar.isFinite then some s else none := by
  have hfraction := FieldValue.toReal?_ofReal (hreals s.fractionSmall (by simp [reals]))
  have hdecay := FieldValue.toReal?_ofReal (hreals s.decayFactor (by simp [reals]))
  have hfar := FieldValue.toReal?_ofReal (hreals s.farThreshold (by simp [reals]))
  simp only [setFields?, fields, List.map_cons, List.map_nil, List.foldlM_cons, List.foldlM_nil,
    setField?, FieldValue.toText?_text, FieldValue.toWordIn?_text, FieldValue.toFlag?_flag,
    FieldValue.toWord?_integer, FieldValue.toHalfWord?_integer, FieldValue.toInt?_integer,
    Trigger.ofWord?_word, SubSolver.ofWord?_word, hfraction, hdecay, hfar, Option.map_some,
    Option.bind_some, Option.bind_eq_bind, reals, List.all_cons, List.all_nil]
  by_cases hf : Scalar.isFinite s.fractionSmall = true
  · by_cases hd : Scalar.isFinite s.decayFactor = true
    · by_cases hr : Scalar.isFinite s.farThreshold = true <;> simp [hf, hd, hr]
    · simp [hf, hd]
  · simp [hf]

/-- The members of an object with the fields of settings. -/
theorem ofJson?_object : ofJson? (.object (s.fields.map fun e => (some e.field, e.value.toJson))) =
    standard.setFields? (s.fields.map fun e => (e.field, e.value.toJson)) := by
  have hnodup : (((s.fields.map fun e => (e.field, e.value.toJson)).map (·.1)).filter
      fieldNames.contains).Nodup := by
    have hnames : (s.fields.map fun e => (e.field, e.value.toJson)).map (·.1) = fieldNames := rfl
    rw [hnames]
    decide
  -- every member has a key
  show (some (s.fields.map fun e => (e.field, e.value.toJson))).bind (fun l =>
    if ((l.map (·.1)).filter fieldNames.contains).Nodup then standard.setFields? l else none) = _
  rw [Option.bind_some, if_pos hnodup]

/-- The fields of settings as the members of an object. -/
def entries (s : Settings Binary64) : List Json.Entry :=
  s.fields.map fun e => ⟨e.field, e.value.toText.toList, e.value.toJson⟩

theorem toList_toText (s : Settings Binary64) : s.toText.toList = '\x7b' :: '\n' ::
    ([',', '\n'].intercalate (s.entries.map Json.Entry.line) ++ ['\n', '\x7d']) := by
  have hindent : "  ".toList = [' ', ' '] := rfl
  have hcolon : ": ".toList = [':', ' '] := rfl
  have hopen : "\x7b\n".toList = ['\x7b', '\n'] := rfl
  have hsep : ",\n".toList = [',', '\n'] := rfl
  have hclose : "\n\x7d".toList = ['\n', '\x7d'] := rfl
  have hlines : (s.fields.map lineOf).map String.toList = s.entries.map Json.Entry.line := by
    rw [entries, List.map_map, List.map_map]
    refine List.map_congr_left fun e _ => ?_
    simp only [Function.comp_apply, lineOf, Json.Entry.line, String.toList_append, hindent, hcolon,
      List.append_assoc, List.cons_append, List.nil_append]
  simp only [toText, String.toList_append, String.toList_intercalate, hlines, hopen, hsep, hclose,
    List.cons_append, List.nil_append]

theorem reads_entries (hreals : s.RealsReadBack) :
    ∀ e ∈ s.entries, Json.Reads e.text e.value := by
  have hread : ∀ x ∈ s.reals, ∀ y, FieldValue.ofReal x = .real y → FieldValue.ReadsBack y := by
    intro x hx y hy
    obtain ⟨hfinite, rfl⟩ := FieldValue.ofReal_eq_real hy
    exact hreals x hx hfinite
  have hfields : ∀ f ∈ s.fields, ∀ x, f.value = .real x → FieldValue.ReadsBack x := by
    simp only [fields, List.forall_mem_cons]
    exact ⟨nofun, nofun, nofun, nofun, nofun, hread _ (by simp [reals]), nofun,
      hread _ (by simp [reals]), nofun, hread _ (by simp [reals]), nofun, nofun⟩
  intro e he
  obtain ⟨f, hf, rfl⟩ := List.mem_map.1 he
  exact FieldValue.reads_toJson (hfields f hf)

/-- What the text of settings stands for. -/
theorem ofJson?_toText (hreals : s.RealsReadBack) :
    (Json.parse? s.toText).bind ofJson? = if s.reals.all Scalar.isFinite then some s else none := by
  have hmembers : s.entries.map Json.Entry.member =
      s.fields.map fun e => (some e.field, e.value.toJson) := by
    rw [entries, List.map_map]
    rfl
  rw [Json.Entry.parse?_eq (by simp [entries, fields]) (reads_entries hreals) s.toList_toText,
    Option.bind_some, hmembers, ofJson?_object, setFields?_fields hreals]

theorem parse_toText_of_finite (hvalid : s.validate = .ok ()) (hreals : s.RealsReadBack)
    (h : s.reals.all Scalar.isFinite = true) : parse s.toText = .ok s := by
  unfold parse
  rw [ofJson?_toText hreals, if_pos h]
  dsimp only
  rw [hvalid]
  rfl

theorem parse_toText_of_infinite (hreals : s.RealsReadBack)
    (h : ¬ s.reals.all Scalar.isFinite = true) : parse s.toText = .error .unreadable := by
  unfold parse
  rw [ofJson?_toText hreals, if_neg h]

/-- A share of decisions is never infinite. -/
theorem isFinite_farThreshold (h : s.validate = .ok ()) :
    Scalar.isFinite s.farThreshold = true := by
  obtain ⟨-, hfar, -, -⟩ := validate_eq_ok.1 h
  rw [checkFarThreshold, demand_eq_ok, Bool.and_eq_true, decide_eq_true_iff,
    decide_eq_true_iff] at hfar
  exact Binary64.isFinite_of_le hfar.1 hfar.2 rfl

/-- The text of valid settings gives the settings again, if both the share of rows and columns and the
growth are finite; otherwise it is refused. -/
theorem parse_toText (hvalid : s.validate = .ok ()) (hreals : s.RealsReadBack) :
    parse s.toText =
      if Scalar.isFinite s.fractionSmall && Scalar.isFinite s.decayFactor then .ok s
      else .error .unreadable := by
  have hall : s.reals.all Scalar.isFinite =
      (Scalar.isFinite s.fractionSmall && Scalar.isFinite s.decayFactor) := by
    simp [reals, isFinite_farThreshold hvalid]
  rw [← hall]
  split
  · rename_i h
    exact parse_toText_of_finite hvalid hreals h
  · rename_i h
    exact parse_toText_of_infinite hreals h

/-- Settings that differ from the standard ones wherever they can. -/
def unusual : Settings Binary64 where
  name := "tab\t, mark\", slash\\, bell\x07 and Δ"
  trigger := .always
  trustOddProblems := true
  numberNodes := 18446744073709551615
  feasibilityPumpOptions := -2147483648
  fractionSmall := Scalar.decimal 25 2
  howOften := 4294967295
  decayFactor := Scalar.decimal 5 1
  seed := 0
  farThreshold := 1
  subSolver := .activityBounds

theorem parse_toText_unusual : unusual.validate = .ok () ∧ unusual.RealsReadBack ∧
    parse unusual.toText =
      if Scalar.isFinite unusual.fractionSmall && Scalar.isFinite unusual.decayFactor
        then .ok unusual else .error .unreadable := by
  have hvalid : unusual.validate = .ok () := by decide +kernel
  have hreals : unusual.RealsReadBack := by decide +kernel
  exact ⟨hvalid, hreals, parse_toText hvalid hreals⟩

/-- Standard settings with an endless growth. -/
def endless : Settings Binary64 :=
  { standard with decayFactor := Scalar.infinity }

/-- Settings that are valid, and whose text cannot be read. -/
theorem not_parse_toText_endless : endless.validate = .ok () ∧ endless.RealsReadBack ∧
    parse endless.toText = .error .unreadable ∧ parse endless.toText ≠ .ok endless := by
  have hvalid : endless.validate = .ok () := by decide +kernel
  have hreals : endless.RealsReadBack := by decide +kernel
  have hinfinite : ¬ endless.reals.all Scalar.isFinite = true := by decide +kernel
  have hrefused := parse_toText_of_infinite hreals hinfinite
  refine ⟨hvalid, hreals, hrefused, fun h => ?_⟩
  rw [hrefused] at h
  cases h

end Settings

end PrimalHeuristics
