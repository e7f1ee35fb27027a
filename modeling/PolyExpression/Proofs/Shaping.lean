import Mathlib.Algebra.Order.Floor.Semifield
import Mathlib.Algebra.Order.Interval.Set.Instances
import Mathlib.Data.Rat.Floor
import Mathlib.Order.Fin.Basic
import Mathlib.Order.Interval.Set.Basic
import Mathlib.Tactic.Linarith
import Mathlib.Tactic.NormNum
import Mathlib.Tactic.Ring
import PolyExpression.Rule

/-!
Shaping in exact arithmetic. Bending is linear on both sides of a half and meets there; a table is straight between its
entries; and a level mixes a value with its place on the curve. Each of the three keeps the order of values and stays in
the unit interval if the table does. Main statement: so does the whole of it, which is what a rule computes from its own
parameters, and the order is turned round if values are turned upside down; the two polynomial curves give such tables,
from zero to one.
-/

namespace PolyExpression

open Amount (ofNat whole)

/-! ### Rational amounts -/

@[simp] theorem Amount.ofNat_rat (n : ℕ) : (ofNat n : ℚ) = n := rfl

theorem Amount.whole_rat (x : ℚ) : whole x = ⌊x⌋₊ := rfl

/-- The numbers from zero to one. -/
abbrev unitInterval : Set ℚ := Set.Icc 0 1

/-! ### Mixing -/

section Combine

variable {weight a b c d : ℚ}

theorem combine_rat (weight a b : ℚ) : combine weight a b = weight * a + (1 - weight) * b := by
  show weight * (a - b) + b = _
  ring

/-- What is mixed of larger numbers is larger. -/
theorem combine_le_combine (hweight : weight ∈ unitInterval) (hac : a ≤ c) (hbd : b ≤ d) :
    combine weight a b ≤ combine weight c d := by
  rw [combine_rat, combine_rat]
  have hfirst := mul_le_mul_of_nonneg_left hac hweight.1
  have hsecond := mul_le_mul_of_nonneg_left hbd (sub_nonneg.mpr hweight.2)
  linarith

theorem combine_self (weight a : ℚ) : combine weight a a = a := by
  rw [combine_rat]
  ring

/-- A mixture lies between what it is mixed of. -/
theorem combine_mem (hweight : weight ∈ unitInterval) {low high : ℚ} (ha : a ∈ Set.Icc low high)
    (hb : b ∈ Set.Icc low high) : combine weight a b ∈ Set.Icc low high := by
  constructor
  · calc low = combine weight low low := (combine_self weight low).symm
      _ ≤ combine weight a b := combine_le_combine hweight ha.1 hb.1
  · calc combine weight a b ≤ combine weight high high := combine_le_combine hweight ha.2 hb.2
      _ = high := combine_self weight high

/-- The more weight the larger number has, the larger is the mixture. -/
theorem combine_le_combine_left {other : ℚ} (hweight : weight ≤ other) (hba : b ≤ a) :
    combine weight a b ≤ combine other a b := by
  have hstep := mul_le_mul_of_nonneg_right hweight (sub_nonneg.mpr hba)
  show weight * (a - b) + b ≤ other * (a - b) + b
  linarith

end Combine

/-! ### Bending -/

section Bend

variable {midpoint : ℚ}

theorem bend_of_lt {x : ℚ} (hx : x < 1 / 2) : bend midpoint x = 2 * x * midpoint :=
  if_pos hx

theorem bend_of_le {x : ℚ} (hx : 1 / 2 ≤ x) : bend midpoint x = midpoint + (2 * x - 1) * (1 - midpoint) :=
  if_neg hx.not_gt

theorem bend_zero (midpoint : ℚ) : bend midpoint 0 = 0 := by
  rw [bend_of_lt (by norm_num)]
  ring

theorem bend_one (midpoint : ℚ) : bend midpoint 1 = 1 := by
  rw [bend_of_le (by norm_num)]
  ring

/-- On both sides of a half, and from one to the other, bending keeps the order. -/
theorem monotone_bend (hmidpoint : midpoint ∈ unitInterval) : Monotone (bend midpoint) := by
  obtain ⟨hlow, hhigh⟩ := hmidpoint
  intro x y hxy
  rcases lt_or_ge y (1 / 2) with hy | hy
  · rw [bend_of_lt (hxy.trans_lt hy), bend_of_lt hy]
    have hstep := mul_le_mul_of_nonneg_right hxy hlow
    linarith
  · rcases lt_or_ge x (1 / 2) with hx | hx
    · rw [bend_of_lt hx, bend_of_le hy]
      calc 2 * x * midpoint ≤ 1 * midpoint := mul_le_mul_of_nonneg_right (by linarith) hlow
        _ = midpoint + 0 := by ring
        _ ≤ midpoint + (2 * y - 1) * (1 - midpoint) :=
            add_le_add_right (mul_nonneg (by linarith) (by linarith)) midpoint
    · rw [bend_of_le hx, bend_of_le hy]
      have hstep := mul_le_mul_of_nonneg_right hxy (sub_nonneg.mpr hhigh)
      linarith

theorem bend_mem (hmidpoint : midpoint ∈ unitInterval) {x : ℚ} (hx : x ∈ unitInterval) :
    bend midpoint x ∈ unitInterval := by
  constructor
  · rw [← bend_zero midpoint]
    exact monotone_bend hmidpoint hx.1
  · rw [← bend_one midpoint]
    exact monotone_bend hmidpoint hx.2

end Bend

namespace Table

/-- The entries do not decrease and lie in the unit interval. -/
structure IsRamp (table : Table ℚ) : Prop where
  monotone : Monotone table
  mem : ∀ i, table i ∈ unitInterval

/-- And they go from zero to one. -/
structure IsFullRamp (table : Table ℚ) : Prop extends IsRamp table where
  first : table 0 = 0
  last : table (Fin.last tableIntervals) = 1

/-! ### Look-up -/

/-- The entry at a place, and the last one behind the end. -/
def entry (table : Table ℚ) (n : ℕ) : ℚ := table ⟨min n tableIntervals, Nat.lt_succ_of_le (Nat.min_le_right _ _)⟩

variable {table : Table ℚ}

theorem monotone_entry (htable : table.IsRamp) : Monotone table.entry := by
  intro m n hmn
  apply htable.monotone
  exact Fin.mk_le_mk.mpr (min_le_min_right _ hmn)

theorem entry_of_le {n : ℕ} (hn : n ≤ tableIntervals) : table.entry n = table ⟨n, Nat.lt_succ_of_le hn⟩ :=
  congrArg table (Fin.ext (Nat.min_eq_left hn))

theorem entry_of_ge {n : ℕ} (hn : tableIntervals ≤ n) : table.entry n = table (Fin.last tableIntervals) :=
  congrArg table (Fin.ext (Nat.min_eq_right hn))

/-- Behind the start of the table the value is mixed of two neighbouring entries, which are the same at the end. -/
theorem lookup_eq (table : Table ℚ) {position : ℚ} (hposition : 0 ≤ position) :
    table.lookup position =
      combine (position - ⌊position⌋₊) (table.entry (⌊position⌋₊ + 1)) (table.entry ⌊position⌋₊) := by
  have hstart : (if (ofNat 0 : ℚ) < position then position else ofNat 0) = position := by
    split
    · rfl
    · next hzero => exact le_antisymm hposition (not_lt.mp hzero)
  unfold lookup
  simp only [hstart, Amount.whole_rat]
  split
  · next hinside =>
    rw [entry_of_le (Nat.succ_le_of_lt hinside), entry_of_le hinside.le]
    rfl
  · next hbehind =>
    have hlast : tableIntervals ≤ ⌊position⌋₊ := not_lt.mp hbehind
    rw [entry_of_ge hlast, entry_of_ge (Nat.le_succ_of_le hlast), combine_self]

/-- How far a position is behind the entry in front of it. -/
theorem sub_floor_mem {position : ℚ} (hposition : 0 ≤ position) : position - ⌊position⌋₊ ∈ unitInterval :=
  ⟨sub_nonneg.mpr (Nat.floor_le hposition), by linarith [Nat.lt_floor_add_one position]⟩

/-- The value at a position lies between the neighbouring entries. -/
theorem lookup_mem (htable : table.IsRamp) {position : ℚ} (hposition : 0 ≤ position) :
    table.lookup position ∈ Set.Icc (table.entry ⌊position⌋₊) (table.entry (⌊position⌋₊ + 1)) := by
  have hstep := monotone_entry htable (Nat.le_succ ⌊position⌋₊)
  rw [lookup_eq table hposition]
  exact combine_mem (sub_floor_mem hposition) (Set.right_mem_Icc.mpr hstep) (Set.left_mem_Icc.mpr hstep)

/-- Inside one interval the value grows with the weight; from one interval to a later one it passes an entry. -/
theorem lookup_le_lookup (htable : table.IsRamp) {p q : ℚ} (hp : 0 ≤ p) (hpq : p ≤ q) :
    table.lookup p ≤ table.lookup q := by
  have hq := hp.trans hpq
  rcases (Nat.floor_mono hpq).eq_or_lt with hsame | hlater
  · rw [lookup_eq table hp, lookup_eq table hq, hsame]
    exact combine_le_combine_left (by linarith) (monotone_entry htable (Nat.le_succ _))
  · calc table.lookup p ≤ table.entry (⌊p⌋₊ + 1) := (lookup_mem htable hp).2
      _ ≤ table.entry ⌊q⌋₊ := monotone_entry htable hlater
      _ ≤ table.lookup q := (lookup_mem htable hq).1

theorem lookup_mem_unitInterval (htable : table.IsRamp) {position : ℚ} (hposition : 0 ≤ position) :
    table.lookup position ∈ unitInterval := by
  obtain ⟨hlow, hhigh⟩ := lookup_mem htable hposition
  exact ⟨(htable.mem _).1.trans hlow, hhigh.trans (htable.mem _).2⟩

/-! ### Blending -/

section Blend

variable {level x y : ℚ}

theorem blend_of_lt (hlevel : level < 1 / 10000) : table.blend level x = x := if_pos hlevel

theorem blend_of_le (hlevel : 1 / 10000 ≤ level) :
    table.blend level x = combine level (table.lookup (x * tableIntervals)) x := if_neg hlevel.not_gt

theorem mul_tableIntervals_nonneg (hx : 0 ≤ x) : 0 ≤ x * tableIntervals := mul_nonneg hx (Nat.cast_nonneg _)

theorem blend_mem (htable : table.IsRamp) (hlevel : level ∈ unitInterval) (hx : x ∈ unitInterval) :
    table.blend level x ∈ unitInterval := by
  rcases lt_or_ge level (1 / 10000) with hsmall | hlarge
  · rw [blend_of_lt hsmall]
    exact hx
  · rw [blend_of_le hlarge]
    exact combine_mem hlevel (lookup_mem_unitInterval htable (mul_tableIntervals_nonneg hx.1)) hx

theorem blend_le_blend (htable : table.IsRamp) (hlevel : level ∈ unitInterval) (hx : 0 ≤ x) (hxy : x ≤ y) :
    table.blend level x ≤ table.blend level y := by
  rcases lt_or_ge level (1 / 10000) with hsmall | hlarge
  · rw [blend_of_lt hsmall, blend_of_lt hsmall]
    exact hxy
  · rw [blend_of_le hlarge, blend_of_le hlarge]
    have hscaled := mul_le_mul_of_nonneg_right hxy (Nat.cast_nonneg (α := ℚ) tableIntervals)
    exact combine_le_combine hlevel (lookup_le_lookup htable (mul_tableIntervals_nonneg hx) hscaled) hxy

end Blend

/-! ### Sampled curves -/

/-- A curve's values at the points of a table. -/
def sampled {α : Type} [Amount α] (curve : α → α) : Table α := fun i => curve (ofNat i.val / ofNat tableIntervals)

variable {curve : ℚ → ℚ}

/-- A table of a curve that does not decrease, from zero to one. -/
theorem isFullRamp_sampled (hmonotone : Monotone curve) (hzero : curve 0 = 0) (hone : curve 1 = 1) :
    (sampled curve).IsFullRamp := by
  have hsampled : Monotone (sampled curve) := by
    intro i j hij
    apply hmonotone
    show (i.val : ℚ) / tableIntervals ≤ j.val / tableIntervals
    gcongr
    exact hij
  have hfirst : sampled curve 0 = 0 := by
    show curve ((0 : ℕ) / tableIntervals) = 0
    rw [Nat.cast_zero, zero_div, hzero]
  have hlast : sampled curve (Fin.last tableIntervals) = 1 := by
    show curve (tableIntervals / tableIntervals) = 1
    rw [div_self (by norm_num [tableIntervals]), hone]
  refine ⟨⟨hsampled, fun i => ⟨?_, ?_⟩⟩, hfirst, hlast⟩
  · calc 0 = sampled curve 0 := hfirst.symm
      _ ≤ sampled curve i := hsampled (Fin.zero_le i)
  · calc sampled curve i ≤ sampled curve (Fin.last tableIntervals) := hsampled (Fin.le_last i)
      _ = 1 := hlast

end Table

/-! ### The two polynomials -/

theorem fifthPower_eq (x : ℚ) : fifthPower x = x ^ 5 := by
  show x * (x * x * (x * x)) = x ^ 5
  ring

/-- The coefficients are those of the closed form. -/
theorem eleventhDegree_eq (x : ℚ) : eleventhDegree x = ((2 * x - 1) ^ 11 + 1) / 2 := by
  unfold eleventhDegree
  simp only [Amount.ofNat_rat]
  push_cast
  ring

theorem isFullRamp_fifthPower : (Table.sampled (fifthPower : ℚ → ℚ)).IsFullRamp := by
  apply Table.isFullRamp_sampled
  · intro x y hxy
    have hodd : Odd 5 := by decide
    rw [fifthPower_eq, fifthPower_eq]
    exact hodd.pow_le_pow.mpr hxy
  · rw [fifthPower_eq]
    norm_num
  · rw [fifthPower_eq]
    norm_num

theorem isFullRamp_eleventhDegree : (Table.sampled (eleventhDegree : ℚ → ℚ)).IsFullRamp := by
  apply Table.isFullRamp_sampled
  · intro x y hxy
    have hodd : Odd 11 := by decide
    have hpower : (2 * x - 1) ^ 11 ≤ (2 * y - 1) ^ 11 := hodd.pow_le_pow.mpr (by linarith)
    rw [eleventhDegree_eq, eleventhDegree_eq]
    linarith
  · rw [eleventhDegree_eq]
    norm_num
  · rw [eleventhDegree_eq]
    norm_num

/-! ### Shaping -/

section Shape

variable {table : Table ℚ} {level midpoint : ℚ} {x : ℚ}

theorem shape_mem (htable : table.IsRamp) (hlevel : level ∈ unitInterval) (hmidpoint : midpoint ∈ unitInterval)
    (inverted : Bool) (hx : x ∈ unitInterval) : shape table level midpoint inverted x ∈ unitInterval := by
  have hbent := bend_mem hmidpoint hx
  apply Table.blend_mem htable hlevel
  cases inverted with
  | false => exact hbent
  | true => exact Set.Icc.one_sub_mem hbent

/-- What a rule sends for a value is shaped with the table of its curve, its level, its midpoint and its inversion.
Read exactly, shaping stays in the unit interval and keeps the order of values, or turns it round if it is inverted. The
tables of the two polynomial curves, read exactly, are such as it asks for, from zero to one. -/
theorem shape_ordered (htable : table.IsRamp) (hlevel : level ∈ unitInterval) (hmidpoint : midpoint ∈ unitInterval) :
    (∀ (rule : Rule) (x : Float), rule.shape x =
        shape rule.curve.table (rule.get .level).ratio (rule.get .midpoint).ratio (rule.get .invert).isOn x)
      ∧ (∀ inverted, Set.MapsTo (shape table level midpoint inverted) unitInterval unitInterval)
      ∧ MonotoneOn (shape table level midpoint false) unitInterval
      ∧ AntitoneOn (shape table level midpoint true) unitInterval
      ∧ (Curve.smoothSharp.table = .sampled fifthPower ∧ (Table.sampled (fifthPower : ℚ → ℚ)).IsFullRamp)
      ∧ Curve.sharpSharp.table = .sampled eleventhDegree ∧ (Table.sampled (eleventhDegree : ℚ → ℚ)).IsFullRamp := by
  refine ⟨Rule.shape_eq, fun inverted x hx => shape_mem htable hlevel hmidpoint inverted hx, ?_, ?_,
    ⟨rfl, isFullRamp_fifthPower⟩, rfl, isFullRamp_eleventhDegree⟩
  · intro x hx y _ hxy
    exact Table.blend_le_blend htable hlevel (bend_mem hmidpoint hx).1 (monotone_bend hmidpoint hxy)
  · intro x _ y hy hxy
    have hturned := sub_le_sub_left (monotone_bend hmidpoint hxy) 1
    exact Table.blend_le_blend htable hlevel (Set.Icc.one_sub_mem (bend_mem hmidpoint hy)).1 hturned

/-- A rule that bends values so that a half goes to three quarters, turns them upside down, and moves them halfway to
the curve of the eleventh degree. -/
def halfwaySharp : Rule :=
  [(RuleParameter.curve, 1.0), (.level, 0.5), (.midpoint, 0.75), (.invert, 1.0)].foldl
    (fun rule edit => rule.modify edit.1 fun parameter => parameter.setRatio edit.2) (.initial ⟨8, by decide⟩)

theorem shape_ordered_eleventhDegree :
    (Table.sampled (eleventhDegree : ℚ → ℚ)).IsRamp ∧ (1 / 2 : ℚ) ∈ unitInterval ∧ (3 / 4 : ℚ) ∈ unitInterval
      ∧ (∀ x, halfwaySharp.shape x = shape (.sampled eleventhDegree) 0.5 0.75 true x)
      ∧ Set.MapsTo (shape (.sampled eleventhDegree) (1 / 2 : ℚ) (3 / 4) true) unitInterval unitInterval
      ∧ MonotoneOn (shape (.sampled eleventhDegree) (1 / 2 : ℚ) (3 / 4) false) unitInterval
      ∧ AntitoneOn (shape (.sampled eleventhDegree) (1 / 2 : ℚ) (3 / 4) true) unitInterval := by
  have htable := isFullRamp_eleventhDegree.toIsRamp
  have hlevel : (1 / 2 : ℚ) ∈ unitInterval := by constructor <;> norm_num
  have hmidpoint : (3 / 4 : ℚ) ∈ unitInterval := by constructor <;> norm_num
  obtain ⟨hrule, hmaps, hkept, hturned, -, hcurve, -⟩ := shape_ordered htable hlevel hmidpoint
  refine ⟨htable, hlevel, hmidpoint, fun x => ?_, hmaps true, hkept, hturned⟩
  have hsharp : halfwaySharp.curve = .sharpSharp := by decide +kernel
  have hhalf : (halfwaySharp.get .level).ratio = 0.5 := by decide +kernel
  have hthree : (halfwaySharp.get .midpoint).ratio = 0.75 := by decide +kernel
  have hinverted : (halfwaySharp.get .invert).isOn = true := by decide +kernel
  rw [hrule, hsharp, hcurve, hhalf, hthree, hinverted]

end Shape

end PolyExpression
