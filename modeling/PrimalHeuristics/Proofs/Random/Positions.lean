import PrimalHeuristics.Proofs.Collection.RunNodes

/-!
# Positions and their random streams

The memory of runs compares the decisions of two positions as numbers, while the stream of a
position is seeded by their words. Words tell apart what numbers do not: the zeros of both signs. So
positions that are the same for the memory have one stream, unless a zero bound has another sign.

* `Decision.words_eq_iff`, `Path.words_eq_iff`: what words of positions tell;
* `Path.KnownAlike`, `Path.knownAlike_iff`: when memory and stream know the same positions;
* `Path.not_knownAlike_zeros`: two positions that only the stream tells apart.
-/

namespace PrimalHeuristics

/-! ### Words of numbers -/

/-- Numbers that are equal have one word, unless they are zeros of both signs. -/
theorem Binary64.bits_eq_iff {x y : Binary64} (hx : x.isNaN = false) (hy : y.isNaN = false) :
    x.bits = y.bits ↔
      x.eq y = true ∧ (x.isZero = true → y.isZero = true → x.isNegative = y.isNegative) := by
  constructor
  · intro h
    obtain rfl : x = y := by
      cases x
      cases y
      exact congrArg Binary64.mk h
    exact ⟨(eq_iff_place hx hx).2 rfl, fun _ _ => rfl⟩
  · rintro ⟨heq, hsign⟩
    by_cases hbits : x.bits = y.bits
    · exact hbits
    · obtain ⟨hxz, hyz⟩ : x.isZero = true ∧ y.isZero = true := by
        unfold eq at heq
        simpa [hx, hy, hbits] using heq
      have hmagnitude : x.magnitude.toNat = y.magnitude.toNat := by
        rw [isZero_iff.1 hxz, isZero_iff.1 hyz]
      exact congrArg bits (ext_magnitude (hsign hxz hyz) hmagnitude)

/-! ### Words of decisions -/

namespace Decision

variable {d e : Decision Binary64}

/-- If both bounds are zeros, they have one sign. -/
def SignsZeroAs (d e : Decision Binary64) : Prop :=
  d.bound.isZero = true → e.bound.isZero = true → d.bound.isNegative = e.bound.isNegative

instance (d e : Decision Binary64) : Decidable (d.SignsZeroAs e) :=
  inferInstanceAs (Decidable (_ → _ → _))

/-- The column has an index of 64 bits, and the bound is a number. -/
structure IsProper (d : Decision Binary64) : Prop where
  index : d.column < UInt64.size
  number : d.bound.isNaN = false

theorem toUInt64_inj {m n : Nat} (hm : m < UInt64.size) (hn : n < UInt64.size) :
    m.toUInt64 = n.toUInt64 ↔ m = n := by
  rw [← UInt64.toNat_inj, UInt64.toNat_ofNat_of_lt' hm, UInt64.toNat_ofNat_of_lt' hn]

theorem directionWord_inj {a b : Direction} :
    (if a = .up then (1 : UInt64) else 0) = (if b = .up then 1 else 0) ↔ a = b := by
  cases a <;> cases b <;> decide

/-- The words of two decisions are equal exactly if the decisions are the same, and a zero bound has
the same sign in both. -/
theorem words_eq_iff (hd : d.IsProper) (he : e.IsProper) :
    d.words = e.words ↔ d.same e = true ∧ d.SignsZeroAs e := by
  have hbound : Scalar.word d.bound = Scalar.word e.bound ↔
      (d.bound == e.bound) = true ∧ d.SignsZeroAs e :=
    Binary64.bits_eq_iff hd.number he.number
  unfold words same
  simp only [List.cons.injEq, and_true, toUInt64_inj hd.index he.index, directionWord_inj, hbound,
    Bool.and_eq_true, beq_iff_eq, and_assoc]

end Decision

/-! ### Words of positions -/

namespace Path

variable {p q : Path Binary64}

/-- All decisions are proper. -/
def IsProper (p : Path Binary64) : Prop :=
  ∀ d ∈ p, d.IsProper

/-- Where both positions have a zero bound, it has one sign. -/
def SignsZerosAs (p q : Path Binary64) : Prop :=
  ∀ e ∈ p.zip q, e.1.SignsZeroAs e.2

instance (p q : Path Binary64) : Decidable (p.SignsZerosAs q) :=
  inferInstanceAs (Decidable (∀ _ ∈ _, _))

/-- Words have no separators, but every decision has three of them. -/
theorem words_cons_eq_iff {d e : Decision Binary64} :
    words (d :: p) = words (e :: q) ↔ d.words = e.words ∧ p.words = q.words := by
  unfold words
  rw [List.flatMap_cons, List.flatMap_cons]
  constructor
  · intro h
    exact List.append_inj h rfl
  · rintro ⟨hd, hp⟩
    rw [hd, hp]

/-- The words of two positions are equal exactly if the positions are the same for the memory of
runs, and zero bounds have the same signs. -/
theorem words_eq_iff (hp : p.IsProper) (hq : q.IsProper) :
    p.words = q.words ↔ p.same q = true ∧ p.SignsZerosAs q := by
  induction p generalizing q with
  | nil =>
    cases q with
    | nil => simp [same, SignsZerosAs]
    | cons e q => simp [words, Decision.words, same]
  | cons d p ih =>
    cases q with
    | nil => simp [words, Decision.words, same]
    | cons e q =>
      obtain ⟨hd, hp⟩ := List.forall_mem_cons.1 hp
      obtain ⟨he, hq⟩ := List.forall_mem_cons.1 hq
      rw [words_cons_eq_iff, Decision.words_eq_iff hd he, ih hp hq]
      unfold SignsZerosAs
      rw [List.zip_cons_cons, List.forall_mem_cons]
      simp only [same, Bool.and_eq_true]
      exact and_and_and_comm

/-! ### Memory and streams -/

/-- Two positions are the same for the memory of runs exactly if their words are equal, and then
they have one stream for every seed. -/
structure KnownAlike (p q : Path Binary64) : Prop where
  words_eq_iff_same : p.same q = true ↔ p.words = q.words
  stream_eq : p.same q = true → ∀ seed, Core.nodeStream seed p = Core.nodeStream seed q

/-- Memory and stream know two positions alike exactly if these differ for the memory, or no zero
bound has another sign. -/
theorem knownAlike_iff (hp : p.IsProper) (hq : q.IsProper) :
    p.KnownAlike q ↔ (p.same q = true → p.SignsZerosAs q) := by
  constructor
  · intro h hsame
    have hwords := h.words_eq_iff_same.1 hsame
    exact ((words_eq_iff hp hq).1 hwords).2
  · intro h
    have hwords : p.same q = true ↔ p.words = q.words := by
      rw [words_eq_iff hp hq]
      exact ⟨fun hsame => ⟨hsame, h hsame⟩, And.left⟩
    refine ⟨hwords, fun hsame seed => ?_⟩
    unfold Core.nodeStream
    rw [hwords.1 hsame]

/-- A column is at least a half rounded down, and the next one is at most `n`. -/
def atZero (n : Nat) : Path Binary64 :=
  [⟨0, .up, Scalar.floor (Scalar.decimal 5 1)⟩, ⟨1, .down, Scalar.ofNat n⟩]

/-- The column is at least minus a half rounded up, which is minus zero. -/
def atMinusZero (n : Nat) : Path Binary64 :=
  [⟨0, .up, Scalar.ceil (-Scalar.decimal 5 1)⟩, ⟨1, .down, Scalar.ofNat n⟩]

theorem isProper_atZero (n : Nat) : (atZero n).IsProper ∧ (atMinusZero n).IsProper := by
  have hcount : Decision.IsProper ⟨1, .down, Scalar.ofNat n⟩ :=
    ⟨show 1 < UInt64.size by decide, Binary64.isNaN_ofNat n⟩
  have hrest := List.forall_mem_singleton.2 hcount
  constructor
  · exact List.forall_mem_cons.2 ⟨⟨by decide, by decide +kernel⟩, hrest⟩
  · exact List.forall_mem_cons.2 ⟨⟨by decide, by decide +kernel⟩, hrest⟩

/-- Zeros of both signs do no harm if something else is different. -/
theorem knownAlike_iff_zeros : (atZero 1).IsProper ∧ (atMinusZero 2).IsProper ∧
    ¬ (atZero 1).SignsZerosAs (atMinusZero 2) ∧ (atZero 1).same (atMinusZero 2) = false ∧
    ((atZero 1).KnownAlike (atMinusZero 2) ↔
      ((atZero 1).same (atMinusZero 2) = true → (atZero 1).SignsZerosAs (atMinusZero 2))) := by
  have hp := (isProper_atZero 1).1
  have hq := (isProper_atZero 2).2
  exact ⟨hp, hq, by decide +kernel, by decide +kernel, knownAlike_iff hp hq⟩

/-- Zeros of both signs alone make two positions that the memory takes for one, but that have
streams of their own. -/
theorem not_knownAlike_zeros : (atZero 1).IsProper ∧ (atMinusZero 1).IsProper ∧
    (atZero 1).same (atMinusZero 1) = true ∧ (atZero 1).words ≠ (atMinusZero 1).words ∧
    Core.nodeStream 1234567 (atZero 1) ≠ Core.nodeStream 1234567 (atMinusZero 1) ∧
    ¬ (atZero 1).KnownAlike (atMinusZero 1) := by
  have hsame : (atZero 1).same (atMinusZero 1) = true := by decide +kernel
  have hwords : (atZero 1).words ≠ (atMinusZero 1).words := by decide +kernel
  refine ⟨(isProper_atZero 1).1, (isProper_atZero 1).2, hsame, hwords, by decide +kernel, ?_⟩
  intro h
  exact hwords (h.words_eq_iff_same.1 hsame)

end Path

end PrimalHeuristics
