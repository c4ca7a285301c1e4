/-!
# Binary64 numbers

Every finite binary64 number is a whole number of units of `2^-1074`. `Number` keeps that count,
so comparing two numbers is comparing two integers. The infinities and the values that are not
numbers have constructors of their own.
-/

namespace CircuitCode

-- Powers are those of the core library, whatever is imported besides.
attribute [local instance (2000)] instPowNat

/-- The first count of units that is out of range. -/
def outOfRange : Nat := 2 ^ (2098 : Nat)

theorem pow_le_outOfRange {k : Nat} (h : k ≤ 2098) : 2 ^ k ≤ outOfRange := by
  unfold outOfRange
  generalize 2098 = n at h
  exact Nat.pow_le_pow_right (by decide) h

theorem outOfRange_pos : 0 < outOfRange := pow_le_outOfRange (Nat.zero_le _)

/-- A count of units is representable when it is in range and is a significand below `2^53`
    shifted left. -/
def Representable (units : Nat) : Prop :=
  units < outOfRange ∧ ∃ significand shift : Nat,
    significand < 2 ^ (53 : Nat) ∧ units = significand * 2 ^ shift

theorem representable_of_lt {units : Nat} (h : units < 2 ^ (53 : Nat)) : Representable units :=
  ⟨Nat.lt_of_lt_of_le h (pow_le_outOfRange (by decide)), units, 0, h, by simp⟩

theorem representable_zero : Representable 0 := representable_of_lt (Nat.two_pow_pos 53)

theorem representable_shift {significand shift : Nat} (hm : significand ≤ 2 ^ (53 : Nat))
    (h : significand * 2 ^ shift < outOfRange) : Representable (significand * 2 ^ shift) := by
  refine ⟨h, ?_⟩
  rcases Nat.lt_or_ge significand (2 ^ 53) with hlt | hge
  · exact ⟨significand, shift, hlt, rfl⟩
  · refine ⟨2 ^ 52, shift + 1, by decide, ?_⟩
    have heq : significand = 2 ^ 52 * 2 := by omega
    rw [heq, Nat.pow_succ 2 shift, Nat.mul_assoc, Nat.mul_comm 2 (2 ^ shift)]

/-- A binary64 number. Zero has two signs, and so has the value that is not a number, although no
    text shows that sign. -/
inductive Number where
  | nan (negative : Bool)
  | infinite (negative : Bool)
  | finite (negative : Bool) (units : Nat) (representable : Representable units)
deriving DecidableEq

namespace Number

/-- Positive zero. -/
def zero : Number := .finite false 0 representable_zero

/-- Positive infinity, the upper limit of an unbounded parameter. -/
def infinity : Number := .infinite false

instance : Inhabited Number := ⟨zero⟩

def isNaN : Number → Bool
  | nan _ => true
  | _ => false

/-- The same number with the other sign. -/
def neg : Number → Number
  | nan negative => nan (!negative)
  | infinite negative => infinite (!negative)
  | finite negative units h => finite (!negative) units h

instance : Neg Number := ⟨neg⟩

/-- The place of a number among the others, in units of `2^-1074`. Both zeros stand at `0`, and
    the infinities stand beyond every finite number. -/
def rank : Number → Int
  | nan _ => 0
  | infinite negative => if negative then -(outOfRange : Int) else outOfRange
  | finite negative units _ => if negative then -(units : Int) else units

/-- The order of the values. Nothing is below or above a value that is not a number. -/
protected def lt (a b : Number) : Prop :=
  a.isNaN = false ∧ b.isNaN = false ∧ a.rank < b.rank

instance : LT Number := ⟨Number.lt⟩

instance (a b : Number) : Decidable (a < b) :=
  inferInstanceAs (Decidable (a.isNaN = false ∧ b.isNaN = false ∧ a.rank < b.rank))

protected def le (a b : Number) : Prop :=
  a.isNaN = false ∧ b.isNaN = false ∧ a.rank ≤ b.rank

instance : LE Number := ⟨Number.le⟩

instance (a b : Number) : Decidable (a ≤ b) :=
  inferInstanceAs (Decidable (a.isNaN = false ∧ b.isNaN = false ∧ a.rank ≤ b.rank))

/-- Equality of values: the two zeros are equal, and a value that is not a number differs from
    everything. Two numbers equal in the sense of `=` may differ here, and the other way round. -/
instance : BEq Number := ⟨fun a b => !a.isNaN && !b.isNaN && decide (a.rank = b.rank)⟩

theorem lt_iff {a b : Number} :
    a < b ↔ a.isNaN = false ∧ b.isNaN = false ∧ a.rank < b.rank := Iff.rfl

theorem le_iff {a b : Number} :
    a ≤ b ↔ a.isNaN = false ∧ b.isNaN = false ∧ a.rank ≤ b.rank := Iff.rfl

theorem beq_iff {a b : Number} :
    (a == b) = true ↔ a.isNaN = false ∧ b.isNaN = false ∧ a.rank = b.rank := by
  simp [BEq.beq, and_assoc]

end Number

end CircuitCode
