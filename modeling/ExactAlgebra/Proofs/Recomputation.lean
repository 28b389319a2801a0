import ExactAlgebra.Proofs.Execution
import ExactAlgebra.Proofs.Literals
import ExactAlgebra.Proofs.Separation
import Mathlib

/-! Fractions are computed to their factors. Where the numbers of a phrase are short enough to be read and
no two of its factors are alike, computing it from the left multiplies the factors above the line, divides
by those below it, and leaves the coefficient as it was written. -/
namespace ExactAlgebra

namespace Rational
open Text Reader

/-- A number that can be read has few binary digits. -/
theorem bitLength_le {n : Nat} (short : (toString n).length ≤ maxLiteralDigits) :
    bitLength n ≤ 10000 := by
  obtain ⟨k, digits, bits⟩ : ∃ k, maxLiteralDigits = 3 * k ∧ 10 * k = 10000 := ⟨1000, rfl, rfl⟩
  have small : n < 2 ^ (10 * k) := by
    calc n < 10 ^ (3 * k) := digits ▸ (length_toString_le_iff n (by decide)).mp short
      _ = (10 ^ 3) ^ k := pow_mul ..
      _ ≤ (2 ^ 10) ^ k := Nat.pow_le_pow_left (by decide) k
      _ = 2 ^ (10 * k) := (pow_mul ..).symm
  rw [← bits]
  unfold bitLength
  split
  · exact Nat.zero_le _
  next positive => exact (Nat.log2_lt positive).mpr small

end Rational

/-- A number that can be read can be inverted. -/
theorem Expr.not_tooLarge_inverse {n : Nat} (short : (toString n).length ≤ Rational.maxLiteralDigits) :
    ¬ Expr.tooLarge (n : Rat) (-1) := by
  rintro ⟨_, large⟩
  have bits := Rational.bitLength_le short
  have one : Rational.bitLength 1 = 1 := by decide
  have size : Expr.bitSize (n : Rat) ≤ 10000 := by
    unfold Expr.bitSize
    rw [Rat.num_natCast, Rat.den_natCast, Int.natAbs_natCast, one]
    split
    · decide
    · exact bits
  have exponent : ((-1 : Rat).num).natAbs = 1 := rfl
  rw [exponent, Nat.mul_one] at large
  unfold maxIntegerBits at large
  omega

namespace Reader

abbrev Phrase.Short : Phrase → Prop :=
  Phrase.All (fun n => (toString n).length ≤ Rational.maxLiteralDigits) fun _ => True

section Parts

variable {ofNumber : Nat → Prop} {ofName : String → Prop}

theorem all_chain {first : Phrase} {rest : List Phrase} :
    (chain first rest).All ofNumber ofName ↔
      ∀ f ∈ first :: rest, f.All ofNumber ofName := by
  induction rest generalizing first with
  | nil => simp [chain]
  | cons f rest ih =>
    have step := @ih (.binary .times first f)
    simp only [chain, List.foldl_cons] at step ⊢
    rw [step]
    simp [Phrase.All, and_assoc]

namespace Fraction

theorem all_signed {negative : Bool} {factors : List Phrase} (some : factors ≠ []) :
    (signed negative factors).All ofNumber ofName ↔ ∀ f ∈ factors, f.All ofNumber ofName := by
  cases factors with
  | nil => exact absurd rfl some
  | cons first rest =>
    rw [signed, all_chain]
    cases negative <;> simp [Phrase.All]

theorem all_quotient {top : Phrase} {factors : List Phrase} :
    (quotient top factors).All ofNumber ofName ↔
      top.All ofNumber ofName ∧ ∀ f ∈ factors, f.All ofNumber ofName := by
  match factors with
  | [] => simp [quotient]
  | [factor] => simp [quotient, Phrase.All]
  | first :: second :: rest => exact and_congr_right fun _ => all_chain

theorem all_phrase {fraction : Fraction} {c : Rat} :
    (fraction.phrase c).All ofNumber ofName ↔
      (∀ f ∈ fraction.numerator (Rational.abs c), f.All ofNumber ofName) ∧
        ∀ f ∈ fraction.denominator (Rational.abs c), f.All ofNumber ofName := by
  rw [phrase, all_quotient, all_signed (fraction.numerator_ne_nil _)]

/-- A fraction has the same numbers and names under the opposite coefficient. -/
theorem all_phrase_neg {fraction : Fraction} {c : Rat} :
    (fraction.phrase (-c)).All ofNumber ofName ↔ (fraction.phrase c).All ofNumber ofName := by
  rw [all_phrase, all_phrase, abs_neg]

end Fraction

theorem all_total {items : List (Rat × Fraction)} (some : items ≠ []) :
    (total items).All ofNumber ofName ↔
      ∀ item ∈ items, (item.2.phrase item.1).All ofNumber ofName := by
  cases items with
  | nil => exact absurd rfl some
  | cons item rest =>
    obtain ⟨c, first⟩ := item
    rw [total, List.forall_mem_cons]
    generalize first.phrase c = sum
    clear some
    induction rest generalizing sum with
    | nil => simp
    | cons item rest ih =>
      obtain ⟨d, term⟩ := item
      rw [List.foldl_cons, ih, List.forall_mem_cons, ← and_assoc]
      refine and_congr_left fun _ => ?_
      dsimp only
      split
      · rw [Phrase.All, Fraction.all_phrase_neg]
      · rw [Phrase.All]

end Parts

open ExactAlgebra.Expr

theorem compute_number {n : Nat} (short : (Phrase.number n).Short) :
    (Phrase.number n).compute = .ok (.number n) := by
  rw [Phrase.compute, Rational.ofText_toString short]
  rfl

theorem compute_negative {a : Phrase} {x : Expr} (inside : a.compute = .ok x) :
    (Phrase.negative a).compute = .ok x.neg := by
  rw [Phrase.compute, inside]
  rfl

theorem compute_binary {sign : Sign} {a b : Phrase} {x y : Expr} (first : a.compute = .ok x)
    (second : b.compute = .ok y) : (Phrase.binary sign a b).compute = sign.apply x y := by
  rw [Phrase.compute, first, second]
  rfl

/-- The phrase is computed to the product of these factors in some order, with that coefficient. -/
def Gives (phrase : Phrase) (factors : List Expr) (k : Rat) : Prop :=
  ∃ after, phrase.compute = .ok (ofFactors after k) ∧ after.Perm factors

def Computed (phrase : Phrase) (e : Expr) : Prop := phrase.compute = .ok e

variable {scheme : Scheme} {a b : Phrase} {fs gs : List Expr} {k l : Rat}

namespace Gives

theorem perm (gives : Gives a fs k) (same : fs.Perm gs) : Gives a gs k := by
  obtain ⟨after, computed, order⟩ := gives
  exact ⟨after, computed, order.trans same⟩

theorem number {n : Nat} (short : (Phrase.number n).Short) : Gives (.number n) [] n := by
  refine ⟨[], ?_, .refl _⟩
  rw [compute_number short]
  by_cases zero : (n : Rat) = 0
  · rw [zero]
    rfl
  · rw [ofFactors_nil zero]

theorem factor {f : Expr} (plain : PlainFactor scheme f) (computed : Computed a f) : Gives a [f] 1 := by
  refine ⟨[f], ?_, .refl _⟩
  have single : ofFactors [f] 1 = f.unit := if_neg one_ne_zero
  rw [single, unit_of_coeff plain.proper.unit]
  exact computed

theorem negative (gives : Gives a fs k) (plain : ∀ f ∈ fs, PlainFactor scheme f) (nonzero : k ≠ 0) :
    Gives (.negative a) fs (-k) := by
  obtain ⟨after, computed, order⟩ := gives
  refine ⟨after, ?_, order⟩
  rw [compute_negative computed, neg_ofFactors nonzero fun f member => (plain f (order.mem_iff.mp member)).standing]

/-- A minus sign may stand in front. -/
theorem signed (gives : Gives a fs k) (plain : ∀ f ∈ fs, PlainFactor scheme f) (nonzero : k ≠ 0)
    (negative : Bool) :
    Gives (if negative then .negative a else a) fs ((if negative then -1 else 1) * k) := by
  cases negative with
  | true => simpa using gives.negative plain nonzero
  | false => simpa using gives

theorem times (givesA : Gives a fs k) (givesB : Gives b gs l) (separate : Separate scheme (fs ++ gs))
    (nonzeroK : k ≠ 0) (nonzeroL : l ≠ 0) : Gives (.binary .times a b) (fs ++ gs) (k * l) := by
  obtain ⟨left, computedA, orderA⟩ := givesA
  obtain ⟨right, computedB, orderB⟩ := givesB
  have order := orderA.append orderB
  obtain ⟨after, product, perm⟩ := (separate.perm order.symm).mul nonzeroK nonzeroL
  exact ⟨after, (compute_binary computedA computedB).trans product, perm.trans order⟩

/-- Factors from the left, each computed by itself. -/
theorem chain {rest : List Phrase} (gives : Gives a fs k) (computed : List.Forall₂ Computed rest gs)
    (separate : Separate scheme (fs ++ gs)) (nonzero : k ≠ 0) : Gives (chain a rest) (fs ++ gs) k := by
  induction computed generalizing a fs with
  | nil => simpa [Reader.chain] using gives
  | @cons phrase g rest gs first _ ih =>
    rw [← List.singleton_append, ← List.append_assoc] at separate
    have plain := separate.left.plain g (by simp)
    have next := gives.times (.factor plain first) separate.left nonzero one_ne_zero
    rw [mul_one] at next
    simpa [Reader.chain] using ih next separate

theorem divided (closed : ∀ q, scheme.powers q → scheme.powers (q * -1)) (givesA : Gives a fs k)
    (givesB : Gives b gs l) (separate : Separate scheme (fs ++ gs.map inverted))
    (plain : ∀ g ∈ gs, PlainFactor scheme g) (nonzeroK : k ≠ 0) (nonzeroL : l ≠ 0)
    (small : ¬ tooLarge l (-1)) : Gives (.binary .divided a b) (fs ++ gs.map inverted) (k / l) := by
  obtain ⟨left, computedA, orderA⟩ := givesA
  obtain ⟨right, computedB, orderB⟩ := givesB
  have order := orderA.append (orderB.map inverted)
  obtain ⟨after, quotient, perm⟩ := (separate.perm order.symm).div closed
    (fun g member => plain g (orderB.mem_iff.mp member)) nonzeroK nonzeroL small
  exact ⟨after, (compute_binary computedA computedB).trans quotient, perm.trans order⟩

end Gives

namespace Fraction

variable {fraction : Fraction}

/-- Above the line stand the numerator of the coefficient and the factors. -/
theorem gives_numerator (above : List.Forall₂ Computed fraction.above fs)
    (separate : Separate scheme fs) {m : Rat} (positive : 0 < m)
    (short : ∀ f ∈ fraction.numerator m, f.Short) (negative : Bool) :
    Gives (signed negative (fraction.numerator m)) fs ((if negative then -1 else 1) * m.num) := by
  have count : ((m.num.toNat : Nat) : Rat) = m.num := by
    have nonneg : 0 ≤ m.num := (Rat.num_pos.mpr positive).le
    exact_mod_cast congrArg (Int.cast : Int → ℚ) (Int.toNat_of_nonneg nonneg)
  have nonzero : (m.num : Rat) ≠ 0 := Int.cast_ne_zero.mpr (Rat.num_pos.mpr positive).ne'
  have sign : ((if negative then -1 else 1) * m.num : Rat) ≠ 0 :=
    mul_ne_zero (by split <;> decide) nonzero
  unfold numerator at short ⊢
  split at short
  next written =>
    rw [if_pos written]
    have first : Gives (.number m.num.toNat) [] m.num := count ▸ .number (short _ (by simp))
    have signed := first.signed separate.left.plain nonzero negative
    exact signed.chain above (by simpa using separate) sign
  next omitted =>
    rw [if_neg omitted, List.nil_append]
    simp only [Bool.or_eq_true, decide_eq_true_eq, not_or, not_not, List.isEmpty_iff] at omitted
    obtain ⟨one, some⟩ := omitted
    rw [one] at sign ⊢
    generalize fraction.above = phrases at above some
    cases above with
    | nil => exact absurd rfl some
    | @cons phrase f rest fs computed others =>
      have plain := separate.plain f List.mem_cons_self
      have first : Gives phrase [f] ((1 : Int) : Rat) := by
        rw [Int.cast_one]
        exact .factor plain computed
      have signed := first.signed (by simpa using plain) (by decide) negative
      exact signed.chain others separate sign

/-- Below the line stand the denominator of the coefficient and the factors. -/
theorem gives_denominator (below : List.Forall₂ Computed fraction.below gs)
    (separate : Separate scheme gs) {m : Rat} (short : ∀ f ∈ fraction.denominator m, f.Short)
    {first : Phrase} {rest : List Phrase} (shape : fraction.denominator m = first :: rest) :
    Gives (chain first rest) gs m.den ∧ ¬ tooLarge (m.den : Rat) (-1) := by
  have nonzero : (m.den : Rat) ≠ 0 := Nat.cast_ne_zero.mpr m.den_ne_zero
  rw [shape] at short
  unfold denominator at shape
  split at shape
  next written =>
    obtain ⟨rfl, rfl⟩ := List.cons.inj shape
    have readable := short _ List.mem_cons_self
    exact ⟨(Gives.number readable).chain below (by simpa using separate) nonzero,
      not_tooLarge_inverse readable⟩
  next omitted =>
    have one : m.den = 1 := not_not.mp omitted
    rw [one, Nat.cast_one]
    rw [shape] at below
    cases below with
    | @cons _ g _ gs computed others =>
      have plain := separate.plain g List.mem_cons_self
      exact ⟨(Gives.factor plain computed).chain others separate one_ne_zero,
        fun large => absurd large.1 (by decide)⟩

theorem compute_quotient (top first : Phrase) (rest : List Phrase) :
    (quotient top (first :: rest)).compute = (Phrase.binary .divided top (chain first rest)).compute := by
  cases rest <;> rfl

theorem abs_pos {c : Rat} (nonzero : c ≠ 0) : 0 < Rational.abs c := by
  unfold Rational.abs
  split
  next negative => exact neg_pos.mpr negative
  next other => exact lt_of_le_of_ne (not_lt.mp other) nonzero.symm

/-- A fraction under a coefficient gives the factors above the line and the inverses of those below. -/
theorem gives_phrase (closed : ∀ q, scheme.powers q → scheme.powers (q * -1))
    (above : List.Forall₂ Computed fraction.above fs) (below : List.Forall₂ Computed fraction.below gs)
    (separate : Separate scheme (fs ++ gs.map inverted)) (plain : ∀ g ∈ gs, PlainFactor scheme g)
    {c : Rat} (nonzero : c ≠ 0) (short : (fraction.phrase c).Short) :
    Gives (fraction.phrase c) (fs ++ gs.map inverted) c := by
  obtain ⟨shortAbove, shortBelow⟩ := all_phrase.mp short
  have positive := abs_pos nonzero
  have top := gives_numerator above separate.left positive shortAbove (decide (c < 0))
  have value : (if decide (c < 0) = true then -1 else 1) * ((Rational.abs c).num : Rat) /
      (Rational.abs c).den = c := by
    rw [mul_div_assoc, Rat.num_div_den, sign_mul_abs]
  have number : (if decide (c < 0) = true then -1 else 1) * ((Rational.abs c).num : Rat) ≠ 0 := by
    intro none
    rw [none, zero_div] at value
    exact nonzero value.symm
  rw [phrase]
  cases shape : fraction.denominator (Rational.abs c) with
  | nil =>
    have whole : (Rational.abs c).den = 1 ∧ fraction.below = [] := by
      unfold denominator at shape
      split at shape
      · cases shape
      next omitted => exact ⟨not_not.mp omitted, shape⟩
    rw [whole.2] at below
    cases below
    rw [whole.1, Nat.cast_one, div_one] at value
    rw [value] at top
    simpa [quotient] using top
  | cons first rest =>
    obtain ⟨bottom, small⟩ := gives_denominator below (.of_inverted plain separate.right) shortBelow shape
    have quotient := top.divided closed bottom separate plain number
      (Nat.cast_ne_zero.mpr (Rational.abs c).den_ne_zero) small
    rw [value] at quotient
    obtain ⟨after, computed, order⟩ := quotient
    exact ⟨after, (compute_quotient _ _ _).trans computed, order⟩

end Fraction

end Reader

end ExactAlgebra
