import CircuitCode.Number.Rounding

/-!
# The bits of a number

The 64 bits of the interchange format: a sign, an exponent field of 11 bits and a fraction of 52.
Through them a number passes to the machine, on which impedances are computed, and back.
-/

namespace CircuitCode

-- Powers are those of the core library, whatever is imported besides.
attribute [local instance (2000)] instPowNat

namespace Number

/-- The bits of a finite magnitude. A normal number leaves its leading bit out, and its exponent
    field is one more than the shift of its last place. -/
def magnitudeBits (units : Nat) : Nat :=
  let shift := units.log2 - 52
  if units < 2 ^ (52 : Nat) then units
  else (shift + 1) * 2 ^ (52 : Nat) + (units / 2 ^ shift - 2 ^ (52 : Nat))

/-- The exponent field of the infinities and of values that are not numbers, in its place. -/
def specialBits : Nat := 2047 * 2 ^ (52 : Nat)

def signBits (negative : Bool) : Nat := if negative then 2 ^ (63 : Nat) else 0

def toBits : Number → UInt64
  | nan negative => .ofNat (signBits negative + specialBits + 2 ^ (51 : Nat))
  | infinite negative => .ofNat (signBits negative + specialBits)
  | finite negative units _ => .ofNat (signBits negative + magnitudeBits units)

theorem representable_normal {fraction field : Nat} (hf : fraction < 2 ^ (52 : Nat))
    (he : field < 2047) : Representable ((2 ^ (52 : Nat) + fraction) * 2 ^ (field - 1)) := by
  have hm : 2 ^ (52 : Nat) + fraction < 2 ^ (53 : Nat) := by omega
  have hs : 53 + (field - 1) ≤ 2098 := by omega
  refine ⟨?_, 2 ^ (52 : Nat) + fraction, field - 1, hm, rfl⟩
  calc (2 ^ (52 : Nat) + fraction) * 2 ^ (field - 1)
      < 2 ^ (53 : Nat) * 2 ^ (field - 1) := Nat.mul_lt_mul_of_pos_right hm (Nat.two_pow_pos _)
    _ = 2 ^ (53 + (field - 1)) := (Nat.pow_add 2 53 _).symm
    _ ≤ outOfRange := pow_le_outOfRange hs

def ofBits (bits : UInt64) : Number :=
  let negative := decide (bits.toNat / 2 ^ (63 : Nat) = 1)
  let field := bits.toNat / 2 ^ (52 : Nat) % 2048
  let fraction := bits.toNat % 2 ^ (52 : Nat)
  have hf : fraction < 2 ^ (52 : Nat) := Nat.mod_lt _ (by decide)
  if he : field < 2047 then
    if field = 0 then
      .finite negative fraction (representable_of_lt (by omega))
    else
      .finite negative ((2 ^ (52 : Nat) + fraction) * 2 ^ (field - 1)) (representable_normal hf he)
  else if fraction = 0 then .infinite negative
  else .nan negative

end Number

end CircuitCode
