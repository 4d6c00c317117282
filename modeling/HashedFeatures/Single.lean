/-! Binary32 numbers that keep the bits of a NaN.

Arithmetic treats all NaNs alike. Their bits are carried beside the number: an operation on a NaN
yields that NaN, made quiet, and an operation that has no result yields the default NaN. Of two NaNs a
product keeps the left one, and a sum the one that was added last.
-/

set_option autoImplicit false

namespace HashedFeatures

structure Single where
  number : Float32
  /-- The bits of a NaN; they say nothing about other numbers. -/
  nanBits : UInt32

namespace Single

def defaultNaN : UInt32 := 0xffc00000

def quietBit : UInt32 := 0x00400000

def ofBits (bits : UInt32) : Single := ⟨Float32.ofBits bits, bits⟩

def ofFloat (number : Float32) : Single := ⟨number, defaultNaN⟩

def bits (single : Single) : UInt32 :=
  if single.number.isNaN then single.nanBits else single.number.toBits

instance : BEq Single where
  beq left right := left.number == right.number

/-- The bits of the NaN that an operation yields whose operands come in this order of preference. -/
def propagated (first second : Single) : UInt32 :=
  if first.number.isNaN then first.nanBits ||| quietBit
  else if second.number.isNaN then second.nanBits ||| quietBit
  else defaultNaN

def mul (left right : Single) : Single :=
  ⟨left.number * right.number, propagated left right⟩

def add (left right : Single) : Single :=
  ⟨left.number + right.number, propagated right left⟩

def one : Single := ofFloat 1

@[simp] theorem number_ofFloat (number : Float32) : (ofFloat number).number = number := rfl

@[simp] theorem number_mul (left right : Single) :
    (left.mul right).number = left.number * right.number := rfl

@[simp] theorem number_add (left right : Single) :
    (left.add right).number = left.number + right.number := rfl

end Single

end HashedFeatures
