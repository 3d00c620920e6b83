import ToyC.Word
import ToyC.Lib.MagicDivision
import ToyC.Lib.Rv32

/-!
# Magic numbers

A division by a constant is compiled to a multiplication by a magic number and a shift. The
two functions below find them, one for signed and one for unsigned dividends; the code
generator and the pass that moves the magic number out of a loop both use them.

For a signed division a loop looks for the least power `2 ^ p` whose multiplier is exact for
every dividend. It keeps the quotients and the remainders of `2 ^ p` by two numbers and
doubles them, so that it never has to compute with a number of more than 32 bits.
-/

namespace ToyC

open Rv32 MagicDivision

/-- The absolute value of a constant, as an unsigned number. -/
def absConst (c : Word) : Nat := c.toInt.natAbs

/-- The variables of the loop that finds a magic number. -/
structure MagicState where
  p : Nat
  q1 : Word
  r1 : Word
  q2 : Word
  r2 : Word
  deriving DecidableEq, Repr

/-- Double a quotient and a remainder. -/
def doubleDivMod (n q r : Word) : Word × Word :=
  if n.ule (r * 2) then (q * 2 + 1, r * 2 - n) else (q * 2, r * 2)

namespace MagicState

/-- One turn of the loop. -/
def turn (anc ad : Word) (s : MagicState) : MagicState :=
  let (q1, r1) := doubleDivMod anc s.q1 s.r1
  let (q2, r2) := doubleDivMod ad s.q2 s.r2
  { p := s.p + 1, q1, r1, q2, r2 }

/-- Whether the loop goes on. -/
def goesOn (ad : Word) (s : MagicState) : Bool :=
  let delta := ad - s.r2
  s.q1.ult delta || s.q1 == delta && s.r1 == 0

/-- The loop, for at most so many turns. -/
def loop (anc ad : Word) : Nat → MagicState → MagicState
  | 0, s => s
  | n + 1, s =>
    let s := s.turn anc ad
    if s.goesOn ad then loop anc ad n s else s

end MagicState

/-- The absolute value of a constant, in a word. -/
def magicAd (d : Word) : Word := if d.slt 0 then -d else d

/-- The bound of the absolute values of the dividends, and the critical one below it. -/
def magicT (d : Word) : Word := 0x80000000#32 + d >>> 31

def magicAnc (d : Word) : Word := magicT d - 1 - magicT d % magicAd d

/-- The variables when the loop begins. -/
def MagicState.start (d : Word) : MagicState :=
  let two31 : Word := 0x80000000#32
  let q1 := two31 / magicAnc d
  let q2 := two31 / magicAd d
  { p := 31, q1, r1 := two31 - q1 * magicAnc d, q2, r2 := two31 - q2 * magicAd d }

/-- **The magic number of a signed division** by a constant, and its shift. The loop takes
fewer turns than it may. -/
def signedMagic (d : Word) : Word × Nat :=
  let s := MagicState.loop (magicAnc d) (magicAd d) 64 (.start d)
  let m := s.q2 + 1
  (if d.slt 0 then -m else m, s.p - 32)

/-- **The magic number of an unsigned division** by a constant, and its shift. -/
def unsignedMagic (d : Word) : Word × Nat :=
  ((List.range 33).findSome? fun k =>
    let m := (2 ^ (32 + k) + d.toNat - 1) / d.toNat
    if m < 2 ^ 32 then some (BitVec.ofNat 32 m, k) else none).getD (0, 0)

/-! ## Words as numbers -/

theorem absConst_eq_toNat (d : Word) : (magicAd d).toNat = absConst d := by
  unfold magicAd absConst
  have hd := d.isLt
  have hint := BitVec.toInt_eq_toNat_cond d
  simp only [BitVec.slt, BitVec.ofNat_eq_ofNat, BitVec.toInt_zero, decide_eq_true_iff]
  split
  · rw [BitVec.toNat_neg]
    split at hint <;> omega
  · split at hint <;> omega

theorem magicT_toNat (d : Word) :
    (magicT d).toNat = 2 ^ 31 + if d.slt 0 then 1 else 0 := by
  unfold magicT
  have hd := d.isLt
  have hint := BitVec.toInt_eq_toNat_cond d
  rw [BitVec.toNat_add, BitVec.toNat_ushiftRight, Nat.shiftRight_eq_div_pow]
  simp only [BitVec.slt, BitVec.ofNat_eq_ofNat, BitVec.toInt_zero, decide_eq_true_iff,
    BitVec.toNat_ofNat]
  split <;> split at hint <;> omega

end ToyC
